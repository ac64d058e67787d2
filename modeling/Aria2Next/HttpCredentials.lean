/-
Where the credentials of a request go.  To another origin neither the HTTP user
and password nor `Authorization` and `Cookie` headers are sent; the SFTP user
and password are.
-/
import Aria2Next.HttpRequest

namespace Aria2Next.Http

open Text

/-- The options that hold a user or a password. -/
def secretNames : List String := ["http-user", "http-passwd", "sftp-user", "sftp-passwd"]

/-- `Authorization` or `Cookie`, in any letter case. -/
def CredentialName (name : Text) : Prop := lower name = of "authorization" ∨
    lower name = of "cookie"

/-- Two header lines with credentials that differ in the value. -/
def CredentialLines (left right : Text) : Prop := ∃ name value other, CredentialName name ∧
    left = name ++ 0x3a :: value ∧ right = name ++ 0x3a :: other

/-- Option sets that differ in credentials only. -/
structure Alike (left right : OptionValues) : Prop where
  same : ∀ name, name ∉ secretNames → name ≠ "header" →
    left name = right name
  header : List.Forall₂ (fun line other =>
      line = other ∨ CredentialLines line other)
    ((left "header").splitOn 0x0a) ((right "header").splitOn 0x0a)

/-- A line that begins with a name and a colon still does when trimmed. -/
theorem trim_name {n : Text} (hn : n ≠ []) (hl : ∀ b ∈ n, isSpace b = false) (v : Text) :
    ∃ r, trim (n ++ 0x3a :: v) = n ++ 0x3a :: r := by
  obtain ⟨first, others, rfl⟩ := List.exists_cons_of_ne_nil hn
  have hf : (first :: others ++ 0x3a :: v).dropWhile isSpace = first :: others ++ 0x3a :: v := by
    rw [List.cons_append, List.dropWhile_cons_of_neg]
    rw [hl first List.mem_cons_self]
    decide
  refine ⟨v.rdropWhile isSpace, ?_⟩
  rw [trim, hf]
  exact rdropWhile_append_cons isSpace _ (by decide) v

theorem lower_append (left right : Text) : lower (left ++ right) = lower left ++ lower right :=
  List.map_append

theorem istartsWith_name {n s : Text} (hn : lower n = s) (hs : lower s = s) (r : Text) :
    istartsWith (n ++ 0x3a :: r) (s ++ [0x3a]) = true := by
  have hc : n ++ 0x3a :: r = n ++ [0x3a] ++ r := by simp
  rw [hc]
  refine istartsWith_append ?_ r
  rw [lower_append, lower_append, hn, hs]

/-- A line with credentials, trimmed, is one that is held back. -/
theorem heldBack {n : Text} (hn : CredentialName n) (v : Text) :
    (istartsWith (trim (n ++ 0x3a :: v)) (of "authorization:") ||
      istartsWith (trim (n ++ 0x3a :: v)) (of "cookie:")) = true := by
  have hs : ∀ {s : Text}, s ≠ [] → s.all (fun b => !isSpace b) = true →
      lower s = s → lower n = s →
      istartsWith (trim (n ++ 0x3a :: v)) (s ++ [0x3a]) = true := by
    intro s hne hcl hst hl
    have hle : ∀ b ∈ n, isSpace b = false := by
      intro b hb
      apply not_isSpace_lowerByte
      have hm : lowerByte b ∈ s := by
        rw [← hl]
        exact List.mem_map_of_mem hb
      simpa using List.all_eq_true.mp hcl _ hm
    have hn' : n ≠ [] := by
      rintro rfl
      exact hne hl.symm
    obtain ⟨r, hr⟩ := trim_name hn' hle v
    rw [hr]
    exact istartsWith_name hl hst r
  rw [Bool.or_eq_true]
  rcases hn with hn | hn
  · left
    have hc : of "authorization:" = of "authorization" ++ [0x3a] := by decide +kernel
    rw [hc]
    exact hs (by decide +kernel) (by decide +kernel) (by decide +kernel) hn
  · right
    have hc : of "cookie:" = of "cookie" ++ [0x3a] := by
      decide +kernel
    rw [hc]
    exact hs (by decide +kernel) (by decide +kernel) (by decide +kernel) hn

/-- Lines that differ in the values of credentials are the same when those are
held back. -/
theorem filter_lines {l o : List Text}
    (hl : List.Forall₂ (fun li other => li = other ∨ CredentialLines li other) l o) :
    ((l.map trim).filter fun li =>
        !(istartsWith li (of "authorization:") ||
          istartsWith li (of "cookie:")) && !li.isEmpty) =
      (o.map trim).filter fun li =>
        !(istartsWith li (of "authorization:") ||
          istartsWith li (of "cookie:")) && !li.isEmpty := by
  induction hl with
  | nil => rfl
  | cons hh _ ih =>
    rw [List.map_cons, List.map_cons, List.filter_cons, List.filter_cons, ih]
    rcases hh with rfl | ⟨name, value, other, hn, rfl, rfl⟩
    · rfl
    · rw [heldBack hn value, heldBack hn other]
      rfl

/-- The options without what may differ. -/
def masked (options : OptionValues) : OptionValues := fun name =>
  if name ∈ "header" :: secretNames then [] else options name

theorem masked_eq (os : OptionValues) {n : String} (hn : n ∉ "header" :: secretNames) :
    masked os n = os n := if_neg hn

theorem Alike.masked {left right : OptionValues} (ha : Alike left right) :
    masked left = masked right := by
  funext name
  by_cases hn : name ∈ "header" :: secretNames
  · rw [Http.masked, Http.masked, if_pos hn, if_pos hn]
  · obtain ⟨hh, hs⟩ := not_or.mp (List.mem_cons.not.mp hn)
    rw [masked_eq left hn, masked_eq right hn, ha.same name hs hh]

section Sections

variable (a : Surroundings) (os : OptionValues)

theorem transport_masked (url o : Text) :
    transport a (masked os) url o = transport a os url o := rfl

theorem tls_masked : tls (masked os) = tls os := rfl

theorem network_masked : network (masked os) = network os := rfl

theorem netrc_masked : netrc (masked os) = netrc os := rfl

theorem cookies_masked (l : Text) : cookies a (masked os) l = cookies a os l := rfl

theorem proxyKind_mem (s : Text) :
    proxyKind s = "https" ∨ proxyKind s = "http" ∨ proxyKind s = "all" := by
  rw [proxyKind]
  split_ifs <;> simp

theorem proxyOption_masked (s : Text) : proxyOption (masked os) s = proxyOption os s := by
  rw [proxyOption, proxyOption]
  rcases proxyKind_mem s with h | h | h
  · rw [h]
    rfl
  · rw [h]
    rfl
  · rw [h]
    rfl

theorem proxyOption_mem (s : Text) : proxyOption os s = "https-proxy" ∨
      proxyOption os s = "http-proxy" ∨ proxyOption os s = "all-proxy" := by
  rw [proxyOption]
  split
  · simp
  · rename_i hk
    rcases proxyKind_mem s with h | h | h
    · rw [h]
      exact .inl rfl
    · rw [h]
      exact .inr (.inl rfl)
    · exact absurd (.inl h) hk

theorem proxy_masked (url : Text) : proxy a (masked os) url = proxy a os url := by
  rw [proxy, proxy, proxyOption_masked]
  rcases proxyOption_mem os (schemeOf a url) with h | h | h
  · rw [h]
    rfl
  · rw [h]
    rfl
  · rw [h]
    rfl

end Sections

/-- To another origin, only user and password by scheme may differ. -/
theorem configureRequest_split (a : Surroundings) (os : OptionValues) {url o : Text}
    (ho : sameOrigin a url o = false) (l : Text) : configureRequest a os url o l =
      transport a (masked os) url o ++ headers os false ++ tls (masked os) ++
        network (masked os) ++ credentials os (schemeOf a url) false ++
        (netrc (masked os) ++ proxy a (masked os) url ++ cookies a (masked os) l) := by
  rw [configureRequest, ho, transport_masked, tls_masked, network_masked,
    netrc_masked, proxy_masked, cookies_masked]
  simp only [List.append_assoc]

theorem headers_alike {left right : OptionValues} (ha : Alike left right) :
    headers left false = headers right false := by
  have hl := filter_lines ha.header
  have hc : left.flag "http-no-cache" = right.flag "http-no-cache" := by
    simp only [OptionValues.flag, ha.same "http-no-cache" (by decide) (by decide)]
  simp only [headers, split, List.filter_filter, Bool.not_false,
    Bool.true_and, Bool.false_or, hl, hc]

theorem issued_all (c : List CurlCall) : issued (fun _ => true) c = c := by
  induction c with
  | nil => rfl
  | cons head t ih => rw [issued, if_pos rfl, ih]

/-- A user for SFTP and nothing else. -/
def sftpUser (user : Text) : OptionValues := fun name =>
  if name = "sftp-user" then user else []

theorem sftpUser_alike (left right : Text) : Alike (sftpUser left) (sftpUser right) where
  same name hn _ := by
    have hne : name ≠ "sftp-user" := by
      rintro rfl
      exact hn (by decide)
    rw [sftpUser, sftpUser, if_neg hne, if_neg hne]
  header := .cons (.inl rfl) .nil

/-- To another origin, option sets that differ only in credentials make the
same request exactly when it is not an SFTP request. -/
theorem credentials_stay_iff (around : Surroundings) {url originalUrl : Text}
    (hother : sameOrigin around url originalUrl = false) (loaded : Text) :
    (∀ accepts left right, Alike left right →
      issued accepts (configureRequest around left url originalUrl loaded) = issued accepts
          (configureRequest around right url originalUrl loaded)) ↔
      schemeOf around url ≠ Text.of "sftp" := by
  constructor
  · intro hsame hsftp
    have hcalls := hsame (fun _ => true) _ _ (sftpUser_alike [0x61] [0x62])
    have halike := sftpUser_alike [0x61] [0x62]
    rw [issued_all, issued_all, configureRequest_split around _ hother,
      configureRequest_split around _ hother, halike.masked, headers_alike halike, hsftp] at hcalls
    have hcredentials := List.append_cancel_left (List.append_cancel_right hcalls)
    exact absurd hcredentials (by decide +kernel)
  · intro hscheme accepts left right halike
    have hnone : ∀ options, credentials options (schemeOf around url) false = [] := by
      intro options
      rw [credentials, if_neg hscheme]
      rfl
    rw [configureRequest_split around _ hother,
      configureRequest_split around _ hother, halike.masked, headers_alike halike, hnone, hnone]

/-- Three URLs, read by a parser that knows them. -/
def plainSurroundings : Surroundings where
  parse url :=
    if url = of "sftp://a/f" then
      some ⟨of "sftp", of "a", of "22"⟩
    else if url = of "sftp://b/f" then
      some ⟨of "sftp", of "b", of "22"⟩
    else if url = of "https://b/f" then
      some ⟨of "https", of "b", of "443"⟩
    else none
  toSize _ := none
  regexMatch _ _ := false
  isSqliteCookieFile _ := false
  fileRevision _ := []
  sqliteCookieLines _ := []

/-- A redirect from SFTP to HTTPS. -/
theorem credentials_stay_https : configureRequest plainSurroundings (sftpUser (Text.of "me"))
        (Text.of "https://b/f") (Text.of "sftp://a/f") [] =
      configureRequest plainSurroundings (sftpUser (Text.of "you"))
        (Text.of "https://b/f") (Text.of "sftp://a/f") [] := by
  have hsame := (credentials_stay_iff plainSurroundings
    (show sameOrigin plainSurroundings (of "https://b/f")
      (of "sftp://a/f") = false by decide +kernel) []).mpr (by decide +kernel) (fun _ => true) _ _
    (sftpUser_alike (of "me") (of "you"))
  rw [issued_all, issued_all] at hsame
  exact hsame

/-- The SFTP user given for host `a` is sent to host `b`. -/
theorem sftp_user_sent_to_other_origin : sameOrigin plainSurroundings (Text.of "sftp://b/f")
        (Text.of "sftp://a/f") = false ∧
      .set .username (.text (Text.of "me")) ∈
        configureRequest plainSurroundings (sftpUser (Text.of "me"))
          (Text.of "sftp://b/f") (Text.of "sftp://a/f") [] ∧
      .set .username (.text (Text.of "me")) ∉
        configureRequest plainSurroundings (sftpUser (Text.of "you"))
          (Text.of "sftp://b/f") (Text.of "sftp://a/f") [] := by
  decide +kernel

end Aria2Next.Http
