import AdxDsp.Text.ReplaceMacro
import AdxDsp.Tracker.Serve

/-!
# The answer to a click

A click with a landing URL is answered by a redirection: the URL is decoded, macros in it are
replaced by parameters of the notice, and the text is handed to `FCGX_FPrintF` as its format.

* **`mem_replaceMacro`**: the bytes of a text after a replacement.
* **`redirect_iff`**: when the header that is sent is the one that was meant.
-/

namespace AdxDsp

open CText

/-! ## `replaceMacro` -/

/-- `replaceMacro_strtok`, on a text whose places fit in an `int`: the text before the first
occurrence of the macro and the text behind it. -/
def cutMacro (delim right : Bytes) : Option (Bytes × Bytes) :=
  (find delim right).map fun size => (right.take size, right.drop (size + delim.length))

/-- `replaceMacro`: every occurrence of `src` is replaced. -/
def replaceMacro (buf src dest : Bytes) : Bytes :=
  (AdxUtil.replaceLoop (cutMacro src) dest (buf.length + 1) [] buf).getD []

section

variable {src : Bytes} (hsrc : src ≠ []) (dest : Bytes)
include hsrc

/-- The bound is no limit: a turn of the loop removes a macro, which is not empty. -/
theorem replaceMacro_eq_replaceAll (buf : Bytes) :
    replaceMacro buf src dest = replaceAll src dest buf := by
  have hloop := @AdxUtil.replaceLoop_eq src hsrc (cutMacro src) (fun _ => True)
    (fun right hfind => by rw [cutMacro, hfind, Option.map_none])
    (fun right n hfind _ => by rw [cutMacro, hfind, Option.map_some])
    dest (buf.length + 1) buf (fun _ _ => trivial) (Nat.lt_succ_self _) []
  rw [replaceMacro, hloop, Option.getD_some, List.nil_append]

/-- A byte that is not of the macro is in the new text iff it is in the old one, or the macro has
been replaced by a text with this byte. -/
theorem mem_replaceMacro {b : UInt8} (hb : b ∉ src) (t : Bytes) :
    b ∈ replaceMacro t src dest ↔ b ∈ t ∨ (src <:+: t ∧ b ∈ dest) := by
  rw [replaceMacro_eq_replaceAll hsrc dest t]
  exact mem_replaceAll_iff hsrc hb dest t

end

/-! ## `http_request_return` -/

/-- The end of a line of the answer. -/
def crlf : Bytes := [13, 10]

/-- `FCGX_FPrintF` with a format and no arguments: a conversion in the format asks for an argument
that is not there, and `none` stands for whatever is sent then. -/
def fcgxFPrintF (fmt : Bytes) : Option Bytes := if 37 ∈ cstr fmt then none else some (cstr fmt)

/-- `http_request_return_200`. -/
def httpRequestReturn200 : Option Bytes :=
  fcgxFPrintF (bytes "Status: 200 OK" ++ crlf ++ bytes "Content-Type:text/plain; charset=utf-8" ++
    crlf ++ bytes "Connection: close" ++ crlf ++ crlf ++ bytes "OK" ++ crlf)

/-- The bid is written behind the first `,h` of a URL of admaster. -/
def insertBid (url bid : Bytes) : Bytes :=
  match find (bytes "admaster") url, find (bytes ",h") url with
  | some _, some n => url.take (n + 2) ++ cstr bid ++ url.drop (n + 2)
  | _, _ => url

section

variable (u : UrlInfo)

/-- The landing URL of a click, decoded in its buffer. -/
def landingUrl : Bytes := cstr (urlDecode (cstr u.curl))

/-- The macros that are replaced in every URL, with their values, in their order. -/
def redirectMacros : List (Bytes × Bytes) :=
  [(bytes "#GP#", u.gp), (bytes "#TP#", u.tp), (bytes "#MB#", u.mb), (bytes "#OP#", u.op),
    (bytes "#NW#", u.nw), (bytes "#MAPID#", decimal u.mapid)]

/-- The URL once these macros are replaced. -/
def redirectParams : Bytes :=
  (redirectMacros u).foldl (fun url m => replaceMacro url m.1 m.2) (landingUrl u)

/-- The URL of the redirection. -/
def redirectUrl : Bytes :=
  if u.bid ≠ [] ∧ 37 ∉ u.bid then
    replaceMacro (insertBid (redirectParams u) u.bid) (bytes "#BID#") u.bid
  else redirectParams u

/-- The redirection to a URL. -/
def redirectHeader (url : Bytes) : Bytes := bytes "Location: " ++ url ++ crlf ++ crlf

/-- `http_request_return_302`: a long landing URL is not answered. -/
def httpRequestReturn302 : Option Bytes :=
  if 2047 ≤ u.curl.length then some [] else fcgxFPrintF (redirectHeader (redirectUrl u))

/-- `http_request_return`. -/
def httpRequestReturn : Option Bytes :=
  if u.mtype = mtypeClk ∧ u.curl ≠ [] then httpRequestReturn302 u else httpRequestReturn200

end

/-! ## Bytes that spoil the answer -/

/-- A line feed, a carriage return and a percent sign. -/
def spoilers : Bytes := [10, 13, 37]

/-- No byte of a text spoils the answer. -/
def Clean (t : Bytes) : Prop := ∀ b ∈ spoilers, b ∉ t

instance (t : Bytes) : Decidable (Clean t) := inferInstanceAs (Decidable (∀ b ∈ _, _))

/-- Each macro that occurs when it is its turn has a clean value. -/
def CleanMacros : Bytes → List (Bytes × Bytes) → Prop
  | _, [] => True
  | t, m :: ms => (m.1 <:+: t → Clean m.2) ∧ CleanMacros (replaceMacro t m.1 m.2) ms

instance decidableCleanMacros : ∀ t ms, Decidable (CleanMacros t ms)
  | _, [] => inferInstanceAs (Decidable True)
  | t, m :: ms => @instDecidableAnd _ _ inferInstance
      (decidableCleanMacros (replaceMacro t m.1 m.2) ms)

/-- The bid is written into the URL. -/
def InsertsBid (u : UrlInfo) : Prop :=
  (u.bid ≠ [] ∧ 37 ∉ u.bid) ∧
    ((bytes "admaster" <:+: redirectParams u ∧ bytes ",h" <:+: redirectParams u) ∨
      bytes "#BID#" <:+: redirectParams u)

instance (u : UrlInfo) : Decidable (InsertsBid u) := inferInstanceAs (Decidable (_ ∧ _))

/-- The landing URL is clean, and so is every parameter that is written into it. -/
def CleanRedirect (u : UrlInfo) : Prop :=
  Clean (landingUrl u) ∧ CleanMacros (landingUrl u) (redirectMacros u) ∧
    (InsertsBid u → Clean u.bid)

instance (u : UrlInfo) : Decidable (CleanRedirect u) := inferInstanceAs (Decidable (_ ∧ _))

/-- A replacement gives a clean text iff the text was clean and the value, if it is written, is. -/
theorem clean_replaceMacro_iff {src : Bytes} (hsrc : src ≠ []) (hclean : Clean src)
    (dest t : Bytes) :
    Clean (replaceMacro t src dest) ↔ Clean t ∧ (src <:+: t → Clean dest) := by
  constructor
  · intro h
    refine ⟨?_, ?_⟩
    · intro b hb hmem
      exact h b hb ((mem_replaceMacro hsrc dest (hclean b hb) t).mpr (.inl hmem))
    · intro hoccurs b hb hmem
      exact h b hb ((mem_replaceMacro hsrc dest (hclean b hb) t).mpr (.inr ⟨hoccurs, hmem⟩))
  · rintro ⟨ht, hdest⟩ b hb hmem
    rcases (mem_replaceMacro hsrc dest (hclean b hb) t).mp hmem with hmem | ⟨hoccurs, hmem⟩
    · exact ht b hb hmem
    · exact hdest hoccurs b hb hmem

/-- A text with its macros replaced is clean just if it and the values that are put in are. -/
theorem clean_foldl_replaceMacro_iff {ms : List (Bytes × Bytes)}
    (hms : ∀ m ∈ ms, m.1 ≠ [] ∧ Clean m.1) (t : Bytes) :
    Clean (ms.foldl (fun url m => replaceMacro url m.1 m.2) t) ↔ Clean t ∧ CleanMacros t ms := by
  induction ms generalizing t with
  | nil => simp [CleanMacros]
  | cons m ms ih =>
    obtain ⟨⟨hne, hclean⟩, hms⟩ := List.forall_mem_cons.mp hms
    rw [List.foldl_cons, ih hms, clean_replaceMacro_iff hne hclean, CleanMacros, and_assoc]

/-- A text in two parts. -/
theorem clean_append_iff {s t : Bytes} : Clean (s ++ t) ↔ Clean s ∧ Clean t := by
  simp only [Clean, List.mem_append, not_or]
  exact ⟨fun h => ⟨fun b hb => (h b hb).1, fun b hb => (h b hb).2⟩,
    fun h b hb => ⟨h.1 b hb, h.2 b hb⟩⟩

/-- Writing the bid into a URL of admaster. -/
theorem clean_insertBid_iff {bid : Bytes} (hnul : 0 ∉ bid) (url : Bytes) :
    Clean (insertBid url bid) ↔
      Clean url ∧ (bytes "admaster" <:+: url ∧ bytes ",h" <:+: url → Clean bid) := by
  unfold insertBid
  cases hsite : find (bytes "admaster") url with
  | none =>
    have hnot := find_eq_none_iff.mp hsite
    simp [hnot]
  | some m =>
    have hsite' : bytes "admaster" <:+: url := ⟨_, _, (eq_of_find hsite).symm⟩
    cases hplace : find (bytes ",h") url with
    | none =>
      have hnot := find_eq_none_iff.mp hplace
      simp [hnot]
    | some n =>
      have hplace' : bytes ",h" <:+: url := ⟨_, _, (eq_of_find hplace).symm⟩
      have hcut : Clean url ↔ Clean (url.take (n + 2)) ∧ Clean (url.drop (n + 2)) := by
        rw [← clean_append_iff, List.take_append_drop]
      show Clean (url.take (n + 2) ++ cstr bid ++ url.drop (n + 2)) ↔ _
      rw [clean_append_iff, clean_append_iff, cstr_eq_self hnul, hcut]
      simp only [hsite', hplace', and_self, true_imp_iff]
      exact and_right_comm

section

variable {u : UrlInfo}

/-- The parameters are clean just if the address and the values in it are. -/
theorem clean_redirectParams_iff :
    Clean (redirectParams u) ↔
      Clean (landingUrl u) ∧ CleanMacros (landingUrl u) (redirectMacros u) := by
  apply clean_foldl_replaceMacro_iff
  simp only [redirectMacros, List.forall_mem_cons]
  exact ⟨by decide +kernel, by decide +kernel, by decide +kernel, by decide +kernel,
    by decide +kernel, by decide +kernel, by simp⟩

/-- The URL of the redirection is clean iff everything that is written into it is. -/
theorem clean_redirectUrl_iff (hnul : 0 ∉ u.bid) : Clean (redirectUrl u) ↔ CleanRedirect u := by
  unfold redirectUrl CleanRedirect InsertsBid
  rw [← and_assoc, ← clean_redirectParams_iff]
  by_cases hbid : u.bid ≠ [] ∧ 37 ∉ u.bid
  · rw [if_pos hbid, clean_replaceMacro_iff (by decide) (by decide +kernel),
      clean_insertBid_iff hnul]
    by_cases hplace : bytes "admaster" <:+: redirectParams u ∧ bytes ",h" <:+: redirectParams u
    · -- the bid is in the URL already
      simp only [hbid, hplace, ne_eq, not_false_eq_true, and_self, true_or, true_imp_iff]
      exact and_iff_left_of_imp fun h _ => h.2
    · -- only `#BID#` can bring it in
      have hkeep : insertBid (redirectParams u) u.bid = redirectParams u := by
        unfold insertBid
        split
        · rename_i m n hsite hn
          exact absurd ⟨⟨_, _, (eq_of_find hsite).symm⟩, ⟨_, _, (eq_of_find hn).symm⟩⟩ hplace
        · rfl
      rw [hkeep]
      simp only [hbid, hplace, ne_eq, not_false_eq_true, and_self, false_or, false_imp_iff,
        true_and, and_true]
  · simp [hbid]

/-- The parameters that are written into the URL are C strings. -/
def CStrings (u : UrlInfo) : Prop := ∀ t ∈ [u.gp, u.tp, u.mb, u.op, u.nw, u.bid], 0 ∉ t

instance (u : UrlInfo) : Decidable (CStrings u) := inferInstanceAs (Decidable (∀ t ∈ _, _))

/-- Replacing macros adds no zero byte. -/
theorem zero_notMem_foldl_replaceMacro {ms : List (Bytes × Bytes)}
    (hms : ∀ m ∈ ms, m.1 ≠ [] ∧ 0 ∉ m.1 ∧ 0 ∉ m.2) {t : Bytes} (ht : 0 ∉ t) :
    0 ∉ ms.foldl (fun url m => replaceMacro url m.1 m.2) t := by
  induction ms generalizing t with
  | nil => exact ht
  | cons m ms ih =>
    obtain ⟨⟨hne, hname, hvalue⟩, hms⟩ := List.forall_mem_cons.mp hms
    apply ih hms
    rw [mem_replaceMacro hne m.2 hname]
    rintro (h | ⟨-, h⟩)
    · exact ht h
    · exact hvalue h

/-- Inserting the bid adds no zero byte. -/
theorem zero_notMem_insertBid {url bid : Bytes} (hurl : 0 ∉ url) : 0 ∉ insertBid url bid := by
  unfold insertBid
  split
  · rename_i m n hsite hplace
    intro h
    rcases List.mem_append.mp h with h | h
    · rcases List.mem_append.mp h with h | h
      · exact hurl (List.mem_of_mem_take h)
      · exact zero_notMem_cstr bid h
    · exact hurl (List.mem_of_mem_drop h)
  · exact hurl

/-- The URL of the redirection is a C string. -/
theorem zero_notMem_redirectUrl (hnul : CStrings u) : 0 ∉ redirectUrl u := by
  simp only [CStrings, List.forall_mem_cons] at hnul
  obtain ⟨hgp, htp, hmb, hop, hnw, hbid, -⟩ := hnul
  have hparams : 0 ∉ redirectParams u := by
    apply zero_notMem_foldl_replaceMacro _ (zero_notMem_cstr _)
    simp only [redirectMacros, List.forall_mem_cons]
    exact ⟨⟨by decide, by decide, hgp⟩, ⟨by decide, by decide, htp⟩, ⟨by decide, by decide, hmb⟩,
      ⟨by decide, by decide, hop⟩, ⟨by decide, by decide, hnw⟩,
      ⟨by decide, by decide, notMem_decimal (by decide) (by decide) _⟩, by simp⟩
  unfold redirectUrl
  split_ifs
  · rw [mem_replaceMacro (by decide) _ (by decide)]
    rintro (h | ⟨-, h⟩)
    · exact zero_notMem_insertBid hparams h
    · exact hbid h
  · exact hparams

/-- The notice is answered by the redirection to a URL, and by no second header. -/
def RedirectsTo (u : UrlInfo) (url : Bytes) : Prop :=
  httpRequestReturn u = some (redirectHeader url) ∧ 13 ∉ url ∧ 10 ∉ url

/-- A click with a landing URL that is not too long is answered by the redirection to this URL, with
its macros replaced, and by no other header, if and only if the decoded URL and every parameter that
is written into it are free of line feeds, carriage returns and percent signs. -/
theorem redirect_iff (hm : u.mtype = mtypeClk) (hcurl : u.curl ≠ []) (hlen : u.curl.length < 2047)
    (hnul : CStrings u) : RedirectsTo u (redirectUrl u) ↔ CleanRedirect u := by
  have hbid : 0 ∉ u.bid := hnul u.bid (by simp)
  have hzero : 0 ∉ redirectHeader (redirectUrl u) := by
    have hurl := zero_notMem_redirectUrl hnul
    have hlocation : (0 : UInt8) ∉ bytes "Location: " := by decide
    have hcrlf : (0 : UInt8) ∉ crlf := by decide
    simp only [redirectHeader, List.mem_append, hlocation, hurl, hcrlf, or_self, not_false_eq_true]
  have hpercent : 37 ∈ redirectHeader (redirectUrl u) ↔ 37 ∈ redirectUrl u := by
    have hlocation : (37 : UInt8) ∉ bytes "Location: " := by decide
    have hcrlf : (37 : UInt8) ∉ crlf := by decide
    simp only [redirectHeader, List.mem_append, hlocation, hcrlf, or_false, false_or]
  have hsent : httpRequestReturn u =
      if 37 ∈ redirectUrl u then none else some (redirectHeader (redirectUrl u)) := by
    rw [httpRequestReturn, if_pos ⟨hm, hcurl⟩, httpRequestReturn302, if_neg (by omega), fcgxFPrintF,
      cstr_eq_self hzero]
    simp only [hpercent]
  rw [← clean_redirectUrl_iff hbid, RedirectsTo, hsent, Clean]
  simp only [spoilers, List.forall_mem_cons]
  -- a percent sign spoils the format, the line ends the header
  by_cases h37 : 37 ∈ redirectUrl u
  · simp [h37]
  · simp [h37, and_comm]

end

/-! ## Landing URLs of a click -/

/-- A click with a landing URL. -/
def sampleClick (curl : Bytes) : UrlInfo := { sampleNotice mtypeClk with curl := curl }

/-- A landing URL with the macro of the location. -/
theorem redirect_iff_sample :
    RedirectsTo (sampleClick (bytes "http%3A%2F%2Fa%2F%3Fg%3D%23GP%23"))
      (redirectUrl (sampleClick (bytes "http%3A%2F%2Fa%2F%3Fg%3D%23GP%23"))) :=
  (redirect_iff rfl (by decide) (by decide +kernel) (by decide +kernel)).mpr (by decide +kernel)

/-- A landing URL that has an encoded byte of its own, `http://a/?d=%E4`, is handed to `printf` as a
format; a landing URL with an encoded line end adds a header of its choice. -/
theorem landing_url_spoils_answer :
    (httpRequestReturn (sampleClick (bytes "http%3A%2F%2Fa%2F%3Fd%3D%25E4")) = none ∧
      redirectUrl (sampleClick (bytes "http%3A%2F%2Fa%2F%3Fd%3D%25E4")) =
        bytes "http://a/?d=%E4") ∧
      httpRequestReturn (sampleClick (bytes "a%0D%0ASet-Cookie:b")) =
        some (bytes "Location: a" ++ crlf ++ bytes "Set-Cookie:b" ++ crlf ++ crlf) ∧
      (¬RedirectsTo (sampleClick (bytes "http%3A%2F%2Fa%2F%3Fd%3D%25E4"))
        (redirectUrl (sampleClick (bytes "http%3A%2F%2Fa%2F%3Fd%3D%25E4"))) ∧
      ¬RedirectsTo (sampleClick (bytes "a%0D%0ASet-Cookie:b"))
        (redirectUrl (sampleClick (bytes "a%0D%0ASet-Cookie:b")))) := by
  have hurl : redirectUrl (sampleClick (bytes "a%0D%0ASet-Cookie:b")) =
      bytes "a" ++ crlf ++ bytes "Set-Cookie:b" := by
    decide +kernel
  refine ⟨⟨by decide +kernel, by decide +kernel⟩, by decide +kernel, ?_, ?_⟩
  · rintro ⟨hsent, -⟩
    have hnone :
        httpRequestReturn (sampleClick (bytes "http%3A%2F%2Fa%2F%3Fd%3D%25E4")) = none := by
      decide +kernel
    rw [hnone] at hsent
    exact absurd hsent.symm (Option.some_ne_none _)
  · rintro ⟨-, hcr, -⟩
    rw [hurl] at hcr
    exact hcr (by decide)

end AdxDsp
