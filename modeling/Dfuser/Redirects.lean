import Mathlib.Data.List.Basic
import Dfuser.Lib.Dict
import Dfuser.Lib.Text

/-!
# Credentials across redirects

`scripts/edm.py` downloads from servers that send the client to a login host and
back.  `SessionWithHeaderRedirection.rebuild_auth` decides at every hop whether the
`Authorization` header of the previous request stays on the next one, by comparing
the hosts of these two requests alone.  What that means for a whole chain is an
invariant over chains: the header has stayed exactly as long as every hop so far
stayed on its host or had the login host at one of its ends, so it can travel from
the login host on to any host the login host names.

Headers are kept under their lower-cased names, as the client library's
case-insensitive dictionary keeps them.  The library copies the headers of one hop
to the next and follows the `Location` of each response; the urls of a chain are
therefore the first one and then any list.  How a url is parsed is a parameter:
nothing below depends on it.

## Main definitions

* `rebuildAuth` — the decision at one hop.
* `resolveRedirects` — all requests a chain of redirects sends.

## Main results

* `authorization_mem_iff` — the header is on a request exactly when no hop before it
  took it off.
* `authorization_sent_only_to` — **where the credentials go.**
-/

namespace Dfuser
namespace Earthdata

/-! ### Requests -/

/-- A prepared request, as far as `rebuild_auth` looks at it. -/
structure PreparedRequest where
  headers : Dict Str Str
  url : Str
  deriving DecidableEq

/-- `SessionWithHeaderRedirection.AUTH_HOST`. -/
def authHost : Str := "urs.earthdata.nasa.gov".toList

/-- The key of the `Authorization` header. -/
def authorization : Str := "authorization".toList

/-- `urlparse(url).hostname` on a url that has a scheme and a host name: what stands
between the two slashes and the path, without user and port, in lower case. -/
def urlHostname (url : Str) : Option Str :=
  match url.dropWhile (· ≠ ':') with
  | ':' :: '/' :: '/' :: rest =>
    let netloc := rest.takeWhile fun c => c ≠ '/' ∧ c ≠ '?' ∧ c ≠ '#'
    let hostinfo := (netloc.reverse.takeWhile (· ≠ '@')).reverse
    let hostname := hostinfo.takeWhile (· ≠ ':')
    if hostname = [] then none else some (hostname.map Char.toLower)
  | _ => none

section

variable (hostname : Str → Option Str)

/-- `rebuild_auth`: `preparedRequest` is about to be sent in answer to the redirect
that the request to `originalUrl` received. -/
def rebuildAuth (preparedRequest : PreparedRequest) (originalUrl : Str) : PreparedRequest :=
  if authorization ∈ preparedRequest.headers.keys then
    let originalHostname := hostname originalUrl
    let redirectHostname := hostname preparedRequest.url
    if originalHostname ≠ redirectHostname ∧ redirectHostname ≠ some authHost ∧
        originalHostname ≠ some authHost then
      { preparedRequest with headers := preparedRequest.headers.erase authorization }
    else preparedRequest
  else preparedRequest

/-- The request of the next hop: a copy of this one, to the new url. -/
def redirect (request : PreparedRequest) (url : Str) : PreparedRequest :=
  rebuildAuth hostname { request with url := url } request.url

/-- The requests sent when `request` and what follows it are answered by redirects
to these urls. -/
def resolveRedirects (request : PreparedRequest) : List Str → List PreparedRequest
  | [] => [request]
  | url :: urls => request :: resolveRedirects (redirect hostname request url) urls

/-! ### One hop -/

/-- A redirect from `source` to `target` keeps the header: the host stays the same,
or one of the two is the login host. -/
def KeepsAuth (source target : Str) : Prop :=
  hostname source = hostname target ∨ hostname target = some authHost ∨
    hostname source = some authHost

@[simp] theorem redirect_url (request : PreparedRequest) (url : Str) :
    (redirect hostname request url).url = url := by
  simp only [redirect, rebuildAuth]
  split
  · split <;> rfl
  · rfl

/-- **One hop.** -/
theorem authorization_mem_redirect_iff (request : PreparedRequest) (url : Str) :
    authorization ∈ (redirect hostname request url).headers.keys ↔
      authorization ∈ request.headers.keys ∧ KeepsAuth hostname request.url url := by
  unfold redirect rebuildAuth KeepsAuth
  by_cases hmem : authorization ∈ request.headers.keys
  · simp only [hmem, if_true, true_and]
    split
    · next hdrop =>
      simp only [Dict.mem_keys_erase, ne_eq, not_true_eq_false, false_and, false_iff]
      tauto
    · next hkeep =>
      simp only [hmem, true_iff]
      tauto
  · simp [hmem]

/-! ### Chains -/

@[simp] theorem resolveRedirects_zero (first : PreparedRequest) (urls : List Str) :
    (resolveRedirects hostname first urls)[0]? = some first := by
  cases urls <;> rfl

/-- Every request but the first is the redirect of the one before it. -/
theorem resolveRedirects_succ {first : PreparedRequest} {urls : List Str} {i : ℕ}
    {target : PreparedRequest} (h : (resolveRedirects hostname first urls)[i + 1]? = some target) :
    ∃ source, (resolveRedirects hostname first urls)[i]? = some source ∧
      target = redirect hostname source target.url := by
  induction urls generalizing first i with
  | nil => simp [resolveRedirects] at h
  | cons url urls ih =>
    rw [resolveRedirects, List.getElem?_cons_succ] at h
    cases i with
    | zero =>
      rw [resolveRedirects_zero, Option.some.injEq] at h
      refine ⟨first, rfl, ?_⟩
      rw [← h, redirect_url]
    | succ i => exact ih h

/-- The header is on a request exactly when it was on the first one and every hop
before this request kept it. -/
theorem authorization_mem_iff {first : PreparedRequest} {urls : List Str} {i : ℕ}
    {request : PreparedRequest} (h : (resolveRedirects hostname first urls)[i]? = some request) :
    authorization ∈ request.headers.keys ↔
      authorization ∈ first.headers.keys ∧
      ∀ j < i, ∀ source target,
        (resolveRedirects hostname first urls)[j]? = some source →
        (resolveRedirects hostname first urls)[j + 1]? = some target →
        KeepsAuth hostname source.url target.url := by
  induction i generalizing request with
  | zero =>
    rw [resolveRedirects_zero, Option.some.injEq] at h
    simp [h]
  | succ i ih =>
    obtain ⟨source, hsource, heq⟩ := resolveRedirects_succ hostname h
    rw [heq, authorization_mem_redirect_iff, ih hsource, and_assoc]
    apply and_congr_right
    intro _
    constructor
    · rintro ⟨hbefore, hlast⟩ j hj p q hp hq
      rcases Nat.lt_succ_iff_lt_or_eq.mp hj with hj | rfl
      · exact hbefore j hj p q hp hq
      · rw [hsource] at hp
        rw [h] at hq
        cases hp
        cases hq
        exact hlast
    · intro hall
      exact ⟨fun j hj => hall j (Nat.lt_succ_of_lt hj), hall i (Nat.lt_succ_self i) _ _ hsource h⟩

/-- **Where the credentials go.**  A request that carries the header goes to the host
of the first request, to the login host, or to a host that the login host itself
redirected to, at this hop or before. -/
theorem authorization_sent_only_to {first : PreparedRequest} {urls : List Str} {i : ℕ}
    {request : PreparedRequest} (h : (resolveRedirects hostname first urls)[i]? = some request)
    (hauth : authorization ∈ request.headers.keys) :
    hostname request.url = hostname first.url ∨ hostname request.url = some authHost ∨
      ∃ j < i, ∃ source target,
        (resolveRedirects hostname first urls)[j]? = some source ∧
        (resolveRedirects hostname first urls)[j + 1]? = some target ∧
        hostname source.url = some authHost ∧ hostname target.url = hostname request.url := by
  induction i generalizing request with
  | zero =>
    rw [resolveRedirects_zero, Option.some.injEq] at h
    exact .inl (by rw [h])
  | succ i ih =>
    obtain ⟨source, hsource, heq⟩ := resolveRedirects_succ hostname h
    rw [heq, authorization_mem_redirect_iff] at hauth
    obtain ⟨hauth, hsame | hlogin | hfrom⟩ := hauth
    · -- the hop stays on its host, which is one of the three kinds
      rw [← hsame]
      rcases ih hsource hauth with hzero | hlogin | ⟨j, hj, p, q, hp, hq, hlogin, hq'⟩
      · exact .inl hzero
      · exact .inr (.inl hlogin)
      · exact .inr (.inr ⟨j, Nat.lt_succ_of_lt hj, p, q, hp, hq, hlogin, hq'⟩)
    · exact .inr (.inl hlogin)
    · exact .inr (.inr ⟨i, Nat.lt_succ_self i, source, request, hsource, h, hfrom, rfl⟩)

end

/-! ### A login in the middle -/

/-- A request with credentials for a data server. -/
def download : PreparedRequest :=
  ⟨Dict.empty.set authorization "Basic dTpw".toList, "https://cddis.nasa.gov/archive".toList⟩

/-- The data server sends the client to the login host, and that sends it back. -/
theorem authorization_sent_only_to_login :
    ∃ request, (resolveRedirects urlHostname download
        ["https://urs.earthdata.nasa.gov/oauth".toList,
          "https://cddis.nasa.gov/archive".toList])[2]? =
        some request ∧ authorization ∈ request.headers.keys ∧
      (urlHostname request.url = urlHostname download.url ∨
        urlHostname request.url = some authHost ∨ ∃ j < 2, ∃ source target,
          (resolveRedirects urlHostname download
            ["https://urs.earthdata.nasa.gov/oauth".toList,
              "https://cddis.nasa.gov/archive".toList])[j]? = some source ∧
          (resolveRedirects urlHostname download
            ["https://urs.earthdata.nasa.gov/oauth".toList,
              "https://cddis.nasa.gov/archive".toList])[j + 1]? = some target ∧
          urlHostname source.url = some authHost ∧
          urlHostname target.url = urlHostname request.url) :=
  ⟨_, rfl, by decide, authorization_sent_only_to urlHostname rfl (by decide)⟩

/-- The login host can send the credentials to a third host. -/
theorem authorization_sent_to_third_host :
    ∃ request, request ∈ resolveRedirects urlHostname download
        ["https://urs.earthdata.nasa.gov/oauth".toList, "https://evil.example.org/".toList] ∧
      authorization ∈ request.headers.keys ∧
      ¬ (urlHostname request.url = urlHostname download.url ∨
        urlHostname request.url = some authHost) :=
  ⟨_, List.mem_cons_of_mem _ (List.mem_cons_of_mem _ List.mem_cons_self), by decide, by decide⟩

end Earthdata
end Dfuser
