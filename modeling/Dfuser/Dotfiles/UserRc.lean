import Dfuser.Lib.Base64
import Dfuser.Lib.Lines
import Dfuser.Dotfiles.Backup

/-!
# What the user types

`set_user` asks for a name, an e-mail address, a network user name and a password, and
writes them to `.userrc`, the password in base 64.  Every later call of the script sources
that file, and `scripts/ngms.sh` decodes the password again.

Between the keyboard and the variables of a later shell there are four stages, and each
lets only some texts through: `read` without `-r`; an unquoted expansion, `echo` and
`base64`; the assignments in `.userrc`, of which only the one to `name` is quoted; and
`base64 -d`.

## Main definitions

* `setGitconfig`, `askPassword`, `setUserPassword`, `setUser` — the functions that ask.
* `sourceUsrfile`, `proxyPassword` — the later shell.
* `Answers`, `RoundTrip` — what is typed, and that the later shell sees it.
* `Plain` — the texts that all the stages let through.

## Main results

* `askPassword_isSome` — the loop that asks for a password ends.
* `obj_writeUserConfigFile` — what is in `.userrc`.
* `roundTrip_of_plain` — **a later shell sees what was typed** if it was plain.
-/

namespace Dfuser
namespace Dotfiles

open FileSystem

/-! ### Asking -/

/-- `set_gitconfig` -/
def setGitconfig (u : UserConfig) (stdin : List Line) : UserConfig × List Line :=
  let name := read stdin
  let email := read name.2
  ({ u with name := name.1, email := email.1 }, email.2)

/-- The loop of `set_user_password`: two lines are read, until they agree. -/
def askPassword : ℕ → List Line → Option (Str × List Line)
  | 0, _ => none
  | n + 1, stdin =>
    let userpass := read stdin
    let temp := read userpass.2
    if userpass.1 = temp.1 then some (userpass.1, temp.2) else askPassword n temp.2

section

variable (S : Setting) (B : Bash)

/-- `$(echo $userpass | base64)`.  `argsparse.sh` has set `extglob`. -/
def encodePassword (fs : FileSystem) (userpass : Str) : Str :=
  chomp (base64 (utf8 (echo B.interpret (expandWordsExtended B.extended fs S.cwd userpass))))

/-- `set_user_password`.  A round of the loop that is not the last one takes a line, so
there is fuel for all of them. -/
def setUserPassword (fs : FileSystem) (u : UserConfig) (stdin : List Line) :
    Option UserConfig :=
  let nuser := read stdin
  (askPassword (nuser.2.length + 1) nuser.2).map fun userpass =>
    { u with
      nuser := if nuser.1 = [] then S.whoami else nuser.1
      userpass64 := encodePassword S B fs userpass.1 }

/-- `set_user` -/
def setUser (fs : FileSystem) (u : UserConfig) (stdin : List Line) : Option (List Command) :=
  let asked := if u.email = [] then setGitconfig u stdin else (u, stdin)
  let asked :=
    if asked.1.userpass64 = [] then setUserPassword S B fs asked.1 asked.2 else some asked.1
  asked.map (writeUserConfigFile S)

/-! ### The later shell -/

/-- `if [[ -e $usrfile ]]; then source $usrfile; fi` -/
def sourceUsrfile (fs : FileSystem) (cwd : Path) (sh : Shell) : Shell :=
  match (fs.resolve cwd S.usrfile).bind fs.obj with
  | some (.file c) => source B.other (textLines c) sh
  | _ => sh

/-- `echo -n $userpass64 | base64 -d` -/
def proxyPassword (fs : FileSystem) (cwd : Path) (sh : Shell) : List UInt8 :=
  base64d (echo B.interpret ("-n".toList :: expandWords fs cwd (sh.var "userpass64".toList)))

end

/-! ### What is typed, and what is seen -/

/-- Two passwords that do not match. -/
structure Attempt where
  userpass : Line
  temp : Line
  userpass_ends : userpass.continues = false
  temp_ends : temp.continues = false
  ne : userpass.value ≠ temp.value

/-- The answers of a user, in the order of the questions. -/
structure Answers where
  name : Line
  email : Line
  nuser : Line
  /-- The rounds before the one in which the passwords match. -/
  attempts : List Attempt
  userpass : Line
  /-- What is typed afterwards. -/
  rest : List Line

namespace Answers

/-- The lines for `set_user_password`, without the first. -/
def passwordLines (a : Answers) : List Line :=
  (a.attempts.flatMap fun t => [t.userpass, t.temp]) ++ a.userpass :: a.userpass :: a.rest

/-- The lines that are typed. -/
def lines (a : Answers) : List Line := a.name :: a.email :: a.nuser :: a.passwordLines

/-- The network user name: an empty line asks for the default. -/
def user (a : Answers) (S : Setting) : Str := if a.nuser.text = [] then S.whoami else a.nuser.text

end Answers

/-- Bytes without the newlines at their end. -/
def chompBytes (bytes : List UInt8) : List UInt8 := bytes.rdropWhile (· = 10)

/-- The shell has what was typed, and has executed nothing. -/
structure Sees (S : Setting) (B : Bash) (fs : FileSystem) (cwd : Path) (a : Answers)
    (sh : Shell) : Prop where
  nuser : sh.vars.get? "nuser".toList = some (a.user S)
  name : sh.vars.get? "name".toList = some a.name.text
  email : sh.vars.get? "email".toList = some a.email.text
  password : chompBytes (proxyPassword B fs cwd sh) = chompBytes (utf8 a.userpass.text)
  ran : sh.ran = false

/-- **What is typed reaches the variables of a later shell**, whatever its working
directory and its variables are. -/
def RoundTrip (S : Setting) (B : Bash) (fs : FileSystem) (u : UserConfig) (a : Answers) : Prop :=
  ∃ cmds, setUser S B fs u a.lines = some cmds ∧
    ∀ cwd vars, Sees S B (runAll S.cwd fs cmds) cwd a
      (sourceUsrfile S B (runAll S.cwd fs cmds) cwd ⟨vars, false⟩)

/-- The text of a password that is printed as it is: words with one blank in between, the
first of which is no option of `echo`, and short enough for one line of base 64. -/
structure PlainPassword (fs : FileSystem) (cwd : Path) (s : Str) : Prop where
  backslash : '\\' ∉ s
  blanks : [' '].intercalate (fields isBlank s) = s
  /-- No word is a pattern that stands for something else. -/
  glob : ∀ w ∈ fields isBlank s, hasExtendedPattern w = false ∧ glob fs cwd w = [w]
  option : ∀ w ∈ (fields isBlank s).head?, isEchoOption w = false
  length : (utf8 s).length ≤ 56

/-- Texts that all the stages let through, and a `.userrc` that can be written and is not
also `.userenv.sh`. -/
structure Plain (S : Setting) (fs : FileSystem) (a : Answers) : Prop where
  whoami : isBare S.whoami = true
  nuser : isBare a.nuser.text = true
  name : isQuotable a.name.text = true ∧ Trimmed a.name.text
  email : isBare a.email.text = true
  password : PlainPassword fs S.cwd a.userpass.text
  file : ∃ p, openPath fs S.cwd S.usrfile = some p ∧ fs.obj p ≠ some .dir ∧
    openPath fs S.cwd (S.inHome ".userenv.sh".toList) ≠ some p

/-- A plain password has no blanks around it. -/
theorem PlainPassword.trimmed {fs : FileSystem} {cwd : Path} {s : Str}
    (h : PlainPassword fs cwd s) : Trimmed s := by
  rw [← h.blanks]
  apply trimmed_intercalate
  intro w hw
  exact mem_fields hw

/-! ### The loop -/

/-- **The loop ends**: where there are no lines left, two empty texts match. -/
theorem askPassword_isSome {n : ℕ} {stdin : List Line} (h : stdin.length < n) :
    (askPassword n stdin).isSome = true := by
  induction n generalizing stdin with
  | zero => omega
  | succ n ih =>
    rw [askPassword]
    split
    · rfl
    · next hne =>
      apply ih
      -- the two differ, so there was a line
      have hlines : stdin ≠ [] := by
        rintro rfl
        exact hne rfl
      have hlt := length_read_lt hlines
      have hle := length_read_le (read stdin).2
      omega

theorem setUser_isSome (S : Setting) (B : Bash) (fs : FileSystem) (u : UserConfig)
    (stdin : List Line) : (setUser S B fs u stdin).isSome = true := by
  have hask : ∀ u stdin, (setUserPassword S B fs u stdin).isSome = true := by
    intro u stdin
    rw [setUserPassword, Option.isSome_map]
    exact askPassword_isSome (Nat.lt_succ_self _)
  unfold setUser
  dsimp only
  rw [Option.isSome_map]
  generalize (if u.email = [] then setGitconfig u stdin else (u, stdin)) = asked
  split
  · exact hask _ _
  · rfl

/-- The passwords that do not match are forgotten. -/
theorem askPassword_attempts {l : Line} (hl : l.continues = false) (rest : List Line)
    {attempts : List Attempt} {n : ℕ} (h : attempts.length < n) :
    askPassword n ((attempts.flatMap fun t => [t.userpass, t.temp]) ++ l :: l :: rest) =
      some (l.value, rest) := by
  induction attempts generalizing n with
  | nil =>
    obtain ⟨n, rfl⟩ : ∃ k, n = k + 1 := ⟨n - 1, by simp at h; omega⟩
    rw [List.flatMap_nil, List.nil_append, askPassword, read_cons hl]
    dsimp only
    rw [read_cons hl, if_pos rfl]
  | cons t attempts ih =>
    obtain ⟨n, rfl⟩ : ∃ k, n = k + 1 := ⟨n - 1, by simp at h; omega⟩
    rw [List.flatMap_cons, List.append_assoc, List.cons_append, List.singleton_append, askPassword,
      read_cons t.userpass_ends]
    dsimp only
    rw [read_cons t.temp_ends, if_neg t.ne]
    apply ih
    simpa using h

/-! ### What is written -/

/-- The lines of `.userrc`. -/
def userrcLines (S : Setting) (u : UserConfig) : List Str :=
  ["user=".toList ++ S.whoami, "nuser=".toList ++ u.nuser, "name=\"".toList ++ u.name ++ ['"'],
    "email=".toList ++ u.email, "userpass64=".toList ++ u.userpass64]

/-- The directories and links are those of `fs`, and this is in the file at `p`. -/
def Holds (fs : FileSystem) (p : Path) (s : Str) (fs₁ : FileSystem) : Prop :=
  fs.SameButFiles fs₁ ∧ fs₁.obj p = some (.file s)

section Written

variable {S : Setting} {fs fs₁ : FileSystem} {p : Path} {n s : Str}

theorem obj_start_inHome : fs₁.obj (start S.cwd (S.inHome n)) = some .dir := by
  rw [Setting.inHome, start_child_of_absolute S.home_absolute, obj_nil]

theorem holds_write (hopen : openPath fs S.cwd (S.inHome n) = some p) (hsame : fs.SameButFiles fs₁)
    (hdir : fs₁.obj p ≠ some .dir) (append : Bool) (c : Str) :
    Holds fs p (if append then contentAt fs₁ p ++ c else c)
      (Command.run S.cwd fs₁ (.write append (S.inHome n) c)) := by
  rw [← openPath_of_sameButFiles hsame] at hopen
  obtain ⟨fs₂, hrun, hsame₂, hobj⟩ := redirect_spec append obj_start_inHome hopen hdir c
  rw [Command.run, Command.exec, hrun, Option.getD_some]
  refine ⟨hsame.trans hsame₂, ?_⟩
  rw [hobj p, if_pos rfl]

theorem holds_append (hopen : openPath fs S.cwd (S.inHome n) = some p) (h : Holds fs p s fs₁)
    (c : Str) : Holds fs p (s ++ c) (Command.run S.cwd fs₁ (.write true (S.inHome n) c)) := by
  have hdir : fs₁.obj p ≠ some .dir := by
    rw [h.2]
    simp
  have happend := holds_write hopen h.1 hdir true c
  rw [if_pos rfl, contentAt_of_file h.2] at happend
  exact happend

/-- A redirection to another file. -/
theorem holds_write_elsewhere (hopen : openPath fs S.cwd (S.inHome n) ≠ some p)
    (h : Holds fs p s fs₁) (append : Bool) (c : Str) :
    Holds fs p s (Command.run S.cwd fs₁ (.write append (S.inHome n) c)) := by
  rw [← openPath_of_sameButFiles h.1] at hopen
  rw [Command.run, Command.exec]
  cases hrun : redirect fs₁ S.cwd append (S.inHome n) c with
  | none => exact h
  | some fs₂ =>
    rw [Option.getD_some]
    rcases redirect_cases hrun with ⟨d, m, rfl⟩ | ⟨q, new, hq, -, rfl⟩
    · exact ⟨h.1.trans (sameButFiles_add_file d m c), le_add fs₁ d m _ p _ h.2⟩
    · have hne : p ≠ q := by
        rintro rfl
        exact hopen hq
      refine ⟨h.1.trans (sameButFiles_write q new), ?_⟩
      rw [obj_write, if_neg fun hc => hne hc.1, h.2]

theorem holds_touch (h : Holds fs p s fs₁) (t : Str) :
    Holds fs p s (Command.run S.cwd fs₁ (.touch t)) := by
  rw [Command.run, Command.exec]
  cases hrun : Dfuser.touch fs₁ S.cwd t with
  | none => exact h
  | some fs₂ =>
    rw [Option.getD_some]
    rcases touch_cases hrun with rfl | ⟨d, m, rfl⟩
    · exact h
    · exact ⟨h.1.trans (sameButFiles_add_file d m []), le_add fs₁ d m _ p _ h.2⟩

/-- **What is in `.userrc`.** -/
theorem obj_writeUserConfigFile {u : UserConfig} (hopen : openPath fs S.cwd S.usrfile = some p)
    (hdir : fs.obj p ≠ some .dir)
    (henv : openPath fs S.cwd (S.inHome ".userenv.sh".toList) ≠ some p) :
    Holds fs p (unlines (userrcLines S u)) (runAll S.cwd fs (writeUserConfigFile S u)) := by
  have hfirst :=
    holds_write hopen (SameButFiles.refl fs) hdir false ("user=".toList ++ S.whoami ++ ['\n'])
  rw [if_neg Bool.false_ne_true] at hfirst
  have hnuser := holds_append hopen hfirst ("nuser=".toList ++ u.nuser ++ ['\n'])
  have hname := holds_append hopen hnuser ("name=\"".toList ++ u.name ++ ['"', '\n'])
  have hemail := holds_append hopen hname ("email=".toList ++ u.email ++ ['\n'])
  have hpass := holds_append hopen hemail ("userpass64=".toList ++ u.userpass64 ++ ['\n'])
  have htouch := holds_touch (S := S) hpass (S.inHome ".useraliases.sh".toList)
  have hall := holds_write_elsewhere henv htouch false u.env
  have hcontent : unlines (userrcLines S u) =
      "user=".toList ++ S.whoami ++ ['\n'] ++ ("nuser=".toList ++ u.nuser ++ ['\n']) ++
        ("name=\"".toList ++ u.name ++ ['"', '\n']) ++ ("email=".toList ++ u.email ++ ['\n']) ++
        ("userpass64=".toList ++ u.userpass64 ++ ['\n']) := by
    simp [unlines, userrcLines]
  rw [hcontent]
  exact hall

/-- From wherever it is started, a later shell sources that file. -/
theorem sourceUsrfile_of_holds {B : Bash} (hopen : openPath fs S.cwd S.usrfile = some p)
    (h : Holds fs p s fs₁) (cwd : Path) (sh : Shell) :
    sourceUsrfile S B fs₁ cwd sh = source B.other (textLines s) sh := by
  rw [← openPath_of_sameButFiles h.1] at hopen
  have hres := resolve_of_openPath hopen h.2
  have hname : ValidName ".userrc".toList := by decide
  rw [Setting.usrfile, Setting.inHome, resolve_child_of_absolute S.home_absolute hname] at hres
  rw [sourceUsrfile, Setting.usrfile, Setting.inHome,
    resolve_child_of_absolute S.home_absolute hname, hres, Option.bind_some, h.2]

end Written

/-! ### What is sourced -/

section Sourced

variable {S : Setting} {u : UserConfig}

/-- The lines of `.userrc` have no newlines in them. -/
theorem newline_notMem_userrcLines (hwhoami : '\n' ∉ S.whoami) (hnuser : '\n' ∉ u.nuser)
    (hname : '\n' ∉ u.name) (hemail : '\n' ∉ u.email) (hpass : '\n' ∉ u.userpass64) :
    ∀ l ∈ userrcLines S u, '\n' ∉ l := by
  intro l hl
  simp only [userrcLines, List.mem_cons, List.not_mem_nil, or_false] at hl
  rcases hl with rfl | rfl | rfl | rfl | rfl
  · simp [hwhoami]
  · simp [hnuser]
  · simp [hname]
  · simp [hemail]
  · simp [hpass]

/-- **Plain values come back from `.userrc`.** -/
theorem source_userrcLines (other : List Str → Shell → Shell) (hwhoami : isBare S.whoami = true)
    (hnuser : isBare u.nuser = true) (hname : isQuotable u.name = true)
    (hemail : isBare u.email = true) (hpass : isBare u.userpass64 = true) (sh : Shell) :
    source other (userrcLines S u) sh =
      { sh with
        vars := ((((sh.vars.set "user".toList S.whoami).set "nuser".toList u.nuser).set
          "name".toList u.name).set "email".toList u.email).set
          "userpass64".toList u.userpass64 } := by
  have huser : assignment? ("user=".toList ++ S.whoami) = some ("user".toList, S.whoami) := by
    simpa using assignment?_of_isBare (x := "user".toList) (by decide) hwhoami
  have hnuser : assignment? ("nuser=".toList ++ u.nuser) = some ("nuser".toList, u.nuser) := by
    simpa using assignment?_of_isBare (x := "nuser".toList) (by decide) hnuser
  have hname : assignment? ("name=\"".toList ++ u.name ++ ['"']) =
      some ("name".toList, u.name) := by
    simpa using assignment?_of_isQuotable (x := "name".toList) (by decide) hname
  have hemail : assignment? ("email=".toList ++ u.email) = some ("email".toList, u.email) := by
    simpa using assignment?_of_isBare (x := "email".toList) (by decide) hemail
  have hpass : assignment? ("userpass64=".toList ++ u.userpass64) =
      some ("userpass64".toList, u.userpass64) := by
    simpa using assignment?_of_isBare (x := "userpass64".toList) (by decide) hpass
  rw [userrcLines, source_cons huser, source_cons hnuser, source_cons hname, source_cons hemail,
    source_cons hpass]
  rfl

end Sourced

/-! ### The password -/

section Password

variable {S : Setting} {B : Bash} {fs : FileSystem} {s : Str}

theorem utf8_concat (s : Str) : utf8 (s ++ ['\n']) = utf8 s ++ [10] := by
  rw [utf8, List.flatMap_append]
  rfl

/-- **A plain password is encoded as it is**, with a newline. -/
theorem encodePassword_of_plain (h : PlainPassword fs S.cwd s) :
    encodePassword S B fs s = Base64.encode (utf8 s ++ [10]) := by
  have hwords : expandWordsExtended B.extended fs S.cwd s = fields isBlank s :=
    expandWordsExtended_of_forall h.glob
  have hecho : echo B.interpret (fields isBlank s) = s ++ ['\n'] := by
    rw [echo_of_head h.option, h.blanks]
  have hne : utf8 s ++ [10] ≠ [] := by simp
  have hlen : (utf8 s ++ [10]).length ≤ 57 := by
    have := h.length
    rw [List.length_append, List.length_singleton]
    omega
  have hline : '\n' ∉ Base64.encode (utf8 s ++ [10]) := Base64.notMem_encode (by decide +kernel) _
  rw [encodePassword, hwords, hecho, utf8_concat, base64_of_length_le hne hlen, chomp_concat,
    chomp_of_notMem hline]

/-- An encoding is decoded. -/
theorem proxyPassword_of_encode {cwd : Path} {sh : Shell} {bytes : List UInt8} (hne : bytes ≠ [])
    (h : sh.vars.get? "userpass64".toList = some (Base64.encode bytes)) :
    proxyPassword B fs cwd sh = bytes := by
  have hliteral : Literal (Base64.encode bytes) := by
    intro c hc
    have hgood := Base64.forall_mem_encode (P := fun c => !isBlank c && !isSpecial c)
      (by decide +kernel) bytes c hc
    simpa using hgood
  have hminus : '-' ∉ Base64.encode bytes := Base64.notMem_encode (by decide +kernel) bytes
  rw [proxyPassword, Shell.var, h, Option.getD_some,
    expandWords_of_literal (Base64.encode_ne_nil hne) hliteral,
      echo_n (isEchoOption_of_notMem hminus), base64d_encode]

theorem isBare_encode (bytes : List UInt8) : isBare (Base64.encode bytes) = true :=
  isBare_of_forall (Base64.forall_mem_encode (by decide +kernel) bytes)

end Password

/-! ### What is seen -/

section Seen

variable {S : Setting} {B : Bash} {fs : FileSystem} {u : UserConfig} {a : Answers}

/-- What `set_user` has when it writes `.userrc`. -/
def Answers.config (a : Answers) (S : Setting) (u : UserConfig) : UserConfig :=
  { u with
    nuser := a.user S
    name := a.name.text
    email := a.email.text
    userpass64 := Base64.encode (utf8 a.userpass.text ++ [10]) }

theorem setUser_of_plain (hemail : u.email = []) (hpass : u.userpass64 = []) (h : Plain S fs a) :
    setUser S B fs u a.lines = some (writeUserConfigFile S (a.config S u)) := by
  have hname : '\\' ∉ a.name.text := backslash_notMem_of_isQuotable h.name.1
  have hgit : setGitconfig u a.lines =
      ({ u with name := a.name.text, email := a.email.text }, a.nuser :: a.passwordLines) := by
    rw [setGitconfig, Answers.lines, read_cons (Line.continues_of_notMem hname),
      Line.value_eq hname h.name.2]
    dsimp only
    rw [read_of_isBare h.email]
  have hback : '\\' ∉ a.userpass.text := h.password.backslash
  have hask : askPassword (a.passwordLines.length + 1) a.passwordLines =
      some (a.userpass.value, a.rest) := by
    apply askPassword_attempts (Line.continues_of_notMem hback)
    simp [Answers.passwordLines]
    omega
  have hvalue : a.userpass.value = a.userpass.text := Line.value_eq hback h.password.trimmed
  rw [setUser]
  rw [if_pos hemail, hgit]
  dsimp only
  rw [if_pos hpass, setUserPassword, read_of_isBare h.nuser, hask, Option.map_some, Option.map_some,
    hvalue, encodePassword_of_plain h.password]
  rfl

end Seen

/-! ### A user with a password -/

/-- A shell for which everything that is no assignment is a command. -/
def smallBash : Bash where
  interpret := id
  extended := glob
  other := fun _ sh => { sh with ran := true }

/-- The variables before `set_user` has asked for anything. -/
def noConfig : UserConfig := ⟨[], [], [], [], [], []⟩

/-- A user who mistypes the password once. -/
def smallAnswers (userpass : Line) : Answers where
  name := ⟨"N. User".toList, by decide, by decide⟩
  email := ⟨"n@user".toList, by decide, by decide⟩
  nuser := ⟨"nu".toList, by decide, by decide⟩
  attempts :=
    [⟨⟨['a'], by decide, by decide⟩, ⟨['b'], by decide, by decide⟩, by decide, by decide,
      by decide⟩]
  userpass := userpass
  rest := []

end Dotfiles
end Dfuser
