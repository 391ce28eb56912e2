import Dfuser.Lib.Dict
import Dfuser.Lib.Text
import Dfuser.Lib.Run
import Dfuser.Lib.FileSystem
import Dfuser.Lib.Words
import Dfuser.Lib.Coreutils
import Dfuser.Lib.RealPath
import Dfuser.Lib.Merges
import Dfuser.Lib.Variables
import Dfuser.Lib.CommitGraph
import Dfuser.Lib.Clones
import Dfuser.Lib.Replicas
import Dfuser.Lib.Python
import Dfuser.Lib.Listing
import Dfuser.Lib.Joined
import Dfuser.Lib.Regex
import Dfuser.Lib.Walks
import Dfuser.Lib.Overwrite
import Dfuser.Lib.Base64
import Dfuser.Lib.Lines
import Dfuser.Lib.Bits
import Dfuser.Lib.Replace
import Dfuser.Lib.Sed
import Dfuser.Lib.TextFile
import Dfuser.Lib.DirTree
import Dfuser.Lib.Json
import Dfuser.Lib.JsonDump
import Dfuser.Lib.Squeeze
import Dfuser.Lib.Move
import Dfuser.Lib.Renaming
import Dfuser.History.Database
import Dfuser.History.Tally
import Dfuser.History.Runs
import Dfuser.History.Save
import Dfuser.History.Shapes
import Dfuser.History.Text
import Dfuser.Ini.Interpolation
import Dfuser.Ini.Config
import Dfuser.Ini.Manager
import Dfuser.Ini.Merge
import Dfuser.Ini.Remainder
import Dfuser.Ini.Compare
import Dfuser.Ini.Layout
import Dfuser.Ini.Text
import Dfuser.Ini.ReadBack
import Dfuser.Ini.RoundTrip
import Dfuser.Ini.TextFiles
import Dfuser.Manager.Files
import Dfuser.Manager.Frame
import Dfuser.Manager.Links
import Dfuser.Manager.Reload
import Dfuser.Manager.Sessions
import Dfuser.Manager.Updates
import Dfuser.Manager.Sync
import Dfuser.Redirects
import Dfuser.Convert.Words
import Dfuser.Convert.Decode
import Dfuser.Convert.Rates
import Dfuser.Convert.Blocks
import Dfuser.Dotdir.Styles
import Dfuser.Dotdir.Gradient
import Dfuser.Dotdir.Walk
import Dfuser.Dotdir.Drawing
import Dfuser.Dotdir.Names
import Dfuser.SplitModels.Matches
import Dfuser.SplitModels.Blocks
import Dfuser.SplitModels.Losses
import Dfuser.SplitModels.DryRun
import Dfuser.Dotfiles.Config
import Dfuser.Dotfiles.Backup
import Dfuser.Dotfiles.Links
import Dfuser.Dotfiles.Content
import Dfuser.Dotfiles.Cycle
import Dfuser.Dotfiles.UserRc
import Dfuser.Dotfiles.Gitconfig
import Dfuser.Mkdocs.Headers
import Dfuser.Mkdocs.Pages
import Dfuser.TreeUpdater
import Dfuser.TreeUpdater.Text
import Dfuser.GenDirs
import Dfuser.GenDirs.FromJson
import Dfuser.AdvancedHistory
import Dfuser.AdvancedHistory.Session
import Dfuser.Pdfrename
import Dfuser.UpdateFiles.Names
import Dfuser.UpdateFiles.Loop
import Dfuser.DfbinMan
import Dfuser.DfbinMan.Runs
import Dfuser.Lib.GitConfig
import Dfuser.SubmoduleUpdate
import Dfuser.Lib.Columns
import Dfuser.Manager.Environment
import Dfuser.Manager.PathFilter
import Dfuser.Notion
import Dfuser.RstTable
import Dfuser.SgtKb
import Dfuser.SgtKb.Many
