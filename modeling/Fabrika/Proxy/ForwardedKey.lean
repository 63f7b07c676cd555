/-
  Fabrika.Proxy.ForwardedKey — a platform key never reaches a webhook through the
  `Authorization` header the proxy forwards.

  The proxy looks for the key in the header and in what its own reading of Basic credentials
  decodes; the application reads the header with parsers of its own. Whatever the
  application's parsers read, the proxy's read too:
  - `basicBinary_of_basicText`: a header the application decodes is one the proxy decoded, to
    the octets the application's text was decoded from.
  - `no_key_forwarded`: so no reading of a forwarded header holds the key.

  The application's are the stricter: they trim nothing, take one blank and whole groups.
-/

import Fabrika.App.Verifiers
import Fabrika.Lib.Utf16
import Fabrika.Proxy.Authorize

namespace Fabrika.Proxy

open Fabrika.Lib Fabrika.App.Verifiers
open Fabrika.Lib.Text (includes isSpace)

/-! ## The proxy's reading of Basic credentials -/

/-- What `carriesPlatformKey` decodes of a header: the octets, each a character. -/
def basicBinary (header : String) : Option String :=
  let cs := Text.trimChars header.toList
  let encoded := (cs.drop 5).dropWhile isSpace
  if (cs.take 5).map Text.lowerChar = "basic".toList ∧ (cs.drop 5).head?.any isSpace ∧ encoded ≠ [] ∧
      encoded.all (fun c => (Base64.value c).isSome || c == '=') then
    Base64.atob (String.ofList encoded)
  else none

theorem carriesPlatformKey_eq (header keyPrefix : String) :
    carriesPlatformKey header keyPrefix = (includes header keyPrefix ||
      (basicBinary header).any (includes · keyPrefix)) := by
  unfold carriesPlatformKey basicBinary
  by_cases hheader : includes header keyPrefix = true
  · rw [if_pos hheader, hheader, Bool.true_or]
  · rw [if_neg hheader, Bool.eq_false_of_not_eq_true hheader, Bool.false_or]
    dsimp only
    split
    · cases Base64.atob (String.ofList ((List.drop 5 (Text.trimChars header.toList)).dropWhile isSpace)) with
      | none => rfl
      | some decoded => rfl
    · rfl

/-! ## The application's reading is one of the proxy's -/

variable {c : Char}

theorem base64_bounds (h : isBase64 c = true ∨ c = '=') : 0x2b ≤ c.toNat ∧ c.toNat ≤ 0x7a := by
  rcases h with h | rfl
  · have hmem : c ∈ Base64.alphabet := by
      rw [isBase64, Base64.value, List.isSome_idxOf?] at h
      exact h
    have hall : (Base64.alphabet.all fun d => 0x2b ≤ d.toNat && d.toNat ≤ 0x7a) = true := by
      rw [Base64.alphabet_eq]
      decide
    simpa using List.all_eq_true.mp hall c hmem
  · decide

theorem isSpace_of_base64 (h : isBase64 c = true ∨ c = '=') : isSpace c = false := by
  have hbounds := base64_bounds h
  simp only [isSpace, Bool.or_eq_false_iff, Bool.and_eq_false_iff, decide_eq_false_iff_not, beq_eq_false_iff_ne]
  omega

/-- White space has no case. -/
theorem lowerChar_of_isSpace (h : isSpace c = true) : Text.lowerChar c = c := by
  simp only [isSpace, Bool.or_eq_true, Bool.and_eq_true, decide_eq_true_eq, beq_iff_eq] at h
  unfold Text.lowerChar
  dsimp only
  rw [if_neg]
  simp only [Bool.or_eq_true, Bool.and_eq_true, decide_eq_true_eq, bne_iff_ne]
  omega

theorem lowerChar_eq_blank (h : Text.lowerChar c = ' ') : c = ' ' := by
  unfold Text.lowerChar at h
  dsimp only at h
  split at h
  · next hupper =>
    simp only [Bool.or_eq_true, Bool.and_eq_true, decide_eq_true_eq, bne_iff_ne] at hupper
    have hcode : (Char.ofNat (c.toNat + 32)).toNat = c.toNat + 32 := toNat_ofNat (.inl (by omega))
    rw [h] at hcode
    have hblank : (' ' : Char).toNat = 32 := rfl
    omega
  · exact h

variable {header binary text : String}

/-- A letter of the scheme's name, in either case, is no white space. -/
theorem isSpace_scheme {scheme : List Char} (h : scheme.map Text.lowerChar = "basic".toList) :
    ∀ c ∈ scheme, isSpace c = false := by
  intro c hc
  by_contra hspace
  have hspace : isSpace c = true := by simpa using hspace
  have hletter : c ∈ "basic".toList := by
    rw [← h, ← lowerChar_of_isSpace hspace]
    exact List.mem_map_of_mem hc
  have hnone : ∀ d ∈ "basic".toList, isSpace d = false := by
    simp only [← Bool.not_eq_true', ← List.all_eq_true]
    decide
  rw [hnone c hletter] at hspace
  cases hspace

/-- What the application's test of a Basic header captures: all of it after the scheme and
    one blank. -/
theorem matchBasic_eq_some {encoded : String} (h : matchBasic header = some encoded) :
    ∃ scheme : List Char, header.toList = scheme ++ ' ' :: encoded.toList ∧ scheme.map Text.lowerChar = "basic".toList ∧
      encoded.toList ≠ [] ∧ ∀ c ∈ encoded.toList, isBase64 c = true ∨ c = '=' := by
  unfold matchBasic at h
  dsimp only at h
  split at h
  · next hmatch =>
    obtain ⟨hscheme, hdigits, hpadding, -⟩ := hmatch
    cases h
    rw [String.toList_ofList]
    have hsplit : "basic ".toList = "basic".toList ++ [' '] := by decide
    rw [hsplit] at hscheme
    obtain ⟨scheme, blank, htake, hname, hblank⟩ := List.map_eq_append_iff.mp hscheme
    obtain ⟨c, rfl, hc⟩ := List.map_eq_singleton_iff.mp hblank
    obtain rfl := lowerChar_eq_blank hc
    refine ⟨scheme, ?_, hname, ?_, ?_⟩
    · rw [List.append_cons, ← htake, List.take_append_drop]
    · intro hnil
      rw [hnil] at hdigits
      exact hdigits rfl
    · intro c hc
      rw [← List.takeWhile_append_dropWhile (p := isBase64) (l := header.toList.drop 6), List.mem_append] at hc
      rcases hc with hc | hc
      · exact .inl (List.mem_takeWhile_imp hc)
      · exact .inr (by simpa using List.all_eq_true.mp hpadding c hc)
  · cases h

/-- Such a header is trimmed to itself. -/
theorem trimChars_basic {scheme encoded : List Char} (hscheme : scheme.map Text.lowerChar = "basic".toList) (hne : encoded ≠ [])
    (hencoded : ∀ c ∈ encoded, isBase64 c = true ∨ c = '=') :
    Text.trimChars (scheme ++ ' ' :: encoded) = scheme ++ ' ' :: encoded := by
  have hnone := isSpace_scheme hscheme
  cases scheme with
  | nil => cases hscheme
  | cons first rest =>
    obtain ⟨init, last, rfl⟩ := (List.eq_nil_or_concat encoded).resolve_left hne
    have hlast : isSpace last = false := isSpace_of_base64 (hencoded last (by simp))
    have hkeep := Text.strip_eq_self (hnone first List.mem_cons_self) hlast (rest ++ ' ' :: init)
    rw [Text.trimChars_eq]
    simpa using hkeep

/-- The proxy captures what the application does. -/
theorem basicBinary_of_matchBasic {encoded : String} (h : matchBasic header = some encoded) :
    basicBinary header = Base64.atob encoded := by
  obtain ⟨scheme, hheader, hscheme, hne, hencoded⟩ := matchBasic_eq_some h
  have hlength : scheme.length = 5 := by
    have hlengths := congrArg List.length hscheme
    rw [List.length_map] at hlengths
    exact hlengths
  have htake : (scheme ++ ' ' :: encoded.toList).take 5 = scheme := List.take_left' hlength
  have hdrop : (scheme ++ ' ' :: encoded.toList).drop 5 = ' ' :: encoded.toList := List.drop_left' hlength
  have hafter : (' ' :: encoded.toList).dropWhile isSpace = encoded.toList := by
    rw [List.dropWhile_cons_of_pos (by decide)]
    cases hcs : encoded.toList with
    | nil => rfl
    | cons c rest =>
      have hc : isSpace c = false := isSpace_of_base64 (hencoded c (by rw [hcs]; exact List.mem_cons_self))
      rw [List.dropWhile_cons_of_neg (by simp [hc])]
  have hall : encoded.toList.all (fun c => (Base64.value c).isSome || c == '=') = true := by
    rw [List.all_eq_true]
    intro c hc
    simpa [isBase64] using hencoded c hc
  unfold basicBinary
  rw [hheader, trimChars_basic hscheme hne hencoded]
  dsimp only
  rw [htake, hdrop, hafter, if_pos ⟨hscheme, rfl, hne, hall⟩, String.ofList_toList]

/-! ## Octets -/

/-- Each character `atob` answers is an octet. -/
theorem octets_of_atob (h : Base64.atob text = some binary) : ∀ c ∈ binary.toList, c.toNat < 0x100 := by
  obtain ⟨bytes, -, rfl⟩ := Option.map_eq_some_iff.mp h
  intro c hc
  rw [String.toList_ofList] at hc
  obtain ⟨b, -, rfl⟩ := List.mem_map.mp hc
  have hbyte : b.toNat < 0x100 := b.toNat_lt
  rw [toNat_ofNat (.inl (by omega))]
  exact hbyte

/-! ## No reading holds the key -/

theorem includes_iff {part : String} : includes text part = true ↔ part.toList <:+: text.toList := by
  rw [includes, List.any_eq_true]
  constructor
  · intro ⟨tail, htail, hhead⟩
    exact (List.isPrefixOf_iff_prefix.mp hhead).isInfix.trans ((List.mem_tails _ _).mp htail).isInfix
  · intro ⟨before, after, happend⟩
    refine ⟨part.toList ++ after, (List.mem_tails _ _).mpr ⟨before, ?_⟩, List.isPrefixOf_iff_prefix.mpr (List.prefix_append _ _)⟩
    rw [← happend, List.append_assoc]

/-- Octets are read off their bytes. -/
theorem map_charCodes {chars : List Char} (h : ∀ c ∈ chars, c.toNat < 0x100) :
    (chars.map fun c => UInt8.ofNat c.toNat).map (fun b => Char.ofNat b.toNat) = chars := by
  rw [List.map_map]
  conv_rhs => rw [← List.map_id chars]
  refine List.map_congr_left fun c hc => ?_
  show Char.ofNat (UInt8.ofNat c.toNat).toNat = c
  rw [UInt8.toNat_ofNat', Nat.mod_eq_of_lt (h c hc), Char.ofNat_toNat]

/-- An ASCII text that stands in the bytes of octets stands in the octets. -/
theorem infix_of_charCodes {part : String} (hbinary : ∀ c ∈ binary.toList, c.toNat < 0x100)
    (hpart : ∀ c ∈ part.toList, c.toNat < 0x80) (h : Urlencoded.utf8 part <:+: charCodes binary) :
    part.toList <:+: binary.toList := by
  have hchars := h.map fun b => Char.ofNat b.toNat
  rw [Utf8.utf8_ascii hpart, charCodes, map_charCodes hbinary,
    map_charCodes fun c hc => lt_trans (hpart c hc) (by decide)] at hchars
  exact hchars

/-- The text the application decodes, and the octets the proxy decoded of the same header. -/
theorem basicText_eq_some (h : basicText (some header) = some text) :
    ∃ binary, basicBinary header = some binary ∧ (∀ c ∈ binary.toList, c.toNat < 0x100) ∧
    Utf8.decodeFatal (charCodes binary) = some text := by
  simp only [basicText, Option.bind_eq_bind, Option.bind_some] at h
  obtain ⟨encoded, hencoded, h⟩ := Option.bind_eq_some_iff.mp h
  obtain ⟨bytes, hbytes, htext⟩ := Option.bind_eq_some_iff.mp h
  simp only [decode] at hbytes
  split at hbytes
  · cases hbytes
  · obtain ⟨binary, hbinary, rfl⟩ := Option.map_eq_some_iff.mp hbytes
    exact ⟨binary, by rw [basicBinary_of_matchBasic hencoded, hbinary], octets_of_atob hbinary, htext⟩

/-- The characters below 0x80, in order. -/
def asciiOf (text : String) : List Char := text.toList.filter fun c => c.toNat < 0x80

theorem mem_asciiOf (h : c ∈ asciiOf text) : c.toNat < 0x80 := by
  simpa using (List.mem_filter.mp h).2

/-- The bytes of octets below 0x80. -/
theorem filter_charCodes (h : ∀ c ∈ binary.toList, c.toNat < 0x100) :
    (charCodes binary).filter (fun b => b.toNat < 0x80) = (asciiOf binary).map fun c => UInt8.ofNat c.toNat := by
  rw [charCodes, List.filter_map, asciiOf]
  have hfilter : ∀ c ∈ binary.toList, ((fun b : UInt8 => decide (b.toNat < 0x80)) ∘ fun c : Char => UInt8.ofNat c.toNat) c =
      decide (c.toNat < 0x80) := by
    intro c hc
    show decide ((UInt8.ofNat c.toNat).toNat < 0x80) = _
    rw [UInt8.toNat_ofNat', Nat.mod_eq_of_lt (h c hc)]
  rw [List.filter_congr hfilter]

/-- Whenever the application decodes Basic credentials, the proxy decoded them, and both saw
    the same ASCII. -/
theorem basicBinary_of_basicText (h : basicText (some header) = some text) :
    ∃ binary, basicBinary header = some binary ∧ asciiOf binary = asciiOf text := by
  obtain ⟨binary, hbinary, hoctets, htext⟩ := basicText_eq_some h
  have hascii := congrArg (List.map fun b => Char.ofNat b.toNat) (Utf8.ascii_of_decodeFatal htext)
  have hlow : ∀ text, ∀ c ∈ asciiOf text, c.toNat < 0x100 := fun text c hc => lt_trans (mem_asciiOf hc) (by decide)
  rw [filter_charCodes hoctets, map_charCodes (hlow binary)] at hascii
  exact ⟨binary, hbinary, hascii.trans (map_charCodes (hlow text))⟩

theorem basicText_holds_no_key {header text keyPrefix : String} (hascii : ∀ c ∈ keyPrefix.toList, c.toNat < 0x80)
    (h : carriesPlatformKey header keyPrefix = false) (htext : basicText (some header) = some text) :
    includes text keyPrefix = false := by
  obtain ⟨binary, hbinary, hoctets, hdecoded⟩ := basicText_eq_some htext
  rw [carriesPlatformKey_eq, hbinary, Option.any_some, Bool.or_eq_false_iff] at h
  by_contra hkey
  have hkey : includes text keyPrefix = true := by simpa using hkey
  have hinfix := infix_of_charCodes hoctets hascii (Utf8.infix_of_decodeFatal hdecoded (includes_iff.mp hkey))
  rw [includes_iff.mpr hinfix] at h
  cases h.2

/-- Parts of a text that lacks the key lack it. -/
theorem includes_of_infix {text part keyPrefix : String} (hpart : part.toList <:+: text.toList)
    (h : includes text keyPrefix = false) :
    includes part keyPrefix = false := by
  by_contra hkey
  have hkey : includes part keyPrefix = true := by simpa using hkey
  rw [includes_iff.mpr ((includes_iff.mp hkey).trans hpart)] at h
  cases h

theorem infix_of_bearerToken {token : String} (h : bearerToken (some header) = some token) : token.toList <:+: header.toList := by
  simp only [bearerToken, Option.bind_eq_bind, Option.bind_some] at h
  split at h
  · cases h
    rw [String.toList_ofList]
    exact (List.drop_suffix 7 _).isInfix
  · cases h

theorem basicPassword_infix {password : String} (h : basicPassword (some header) = some password) :
    ∃ text, basicText (some header) = some text ∧ password.toList <:+: text.toList := by
  obtain ⟨text, htext, h⟩ := Option.bind_eq_some_iff.mp h
  obtain ⟨⟨user, rest⟩, hcut, h⟩ := Option.bind_eq_some_iff.mp h
  cases h
  refine ⟨text, htext, ?_⟩
  rw [String.toList_ofList, Text.cut_eq_some hcut, List.append_cons]
  exact (List.suffix_append _ _).isInfix

/-- A header forwarded on a row that declares `authorization: 'forward'`, which a protocol row
    never does, holds no platform key: not as it stands, not in the token or the Basic
    credentials the application reads from it. And whatever header the application decodes,
    the proxy decoded, to the same ASCII. -/
theorem no_key_forwarded {row : ManifestEndpointRow} {request : ForwardedRequest} {authorization : String}
    (hrow : row.kind ≠ .protocol ∧ row.forwardsAuthorization = true)
    (hheader : request.headers "Authorization" = some authorization)
    (hforwards : forwardsAuthorization row request = true) :
    includes authorization apiKeyPrefix = false ∧
      (∀ token, bearerToken (some authorization) = some token → includes token apiKeyPrefix = false) ∧
      (∀ text, basicText (some authorization) = some text → includes text apiKeyPrefix = false) ∧
      (∀ password, basicPassword (some authorization) = some password → includes password apiKeyPrefix = false) ∧
      ∀ header text, basicText (some header) = some text → ∃ binary, basicBinary header = some binary ∧
      asciiOf binary = asciiOf text := by
  have hcarries : carriesPlatformKey authorization apiKeyPrefix = false := by
    simp only [forwardsAuthorization, hheader, Bool.or_eq_true, beq_iff_eq, Bool.and_eq_true, Bool.not_eq_true'] at hforwards
    exact (hforwards.resolve_left hrow.1).2
  have hascii : ∀ c ∈ apiKeyPrefix.toList, c.toNat < 0x80 := by simp [apiKeyPrefix]
  have hwhole : includes authorization apiKeyPrefix = false := by
    rw [carriesPlatformKey_eq, Bool.or_eq_false_iff] at hcarries
    exact hcarries.1
  have htext : ∀ text, basicText (some authorization) = some text → includes text apiKeyPrefix = false :=
    fun text h => basicText_holds_no_key hascii hcarries h
  refine ⟨hwhole, fun token h => includes_of_infix (infix_of_bearerToken h) hwhole, htext, ?_,
    fun header text h => basicBinary_of_basicText h⟩
  intro password h
  obtain ⟨text, hdecoded, hinfix⟩ := basicPassword_infix h
  exact includes_of_infix hinfix (htext text hdecoded)

/-- A webhook row that forwards its caller's Basic credentials. -/
def hookRow : ManifestEndpointRow where
  id := "hooks.intake"
  kind := .webhook
  method := .post
  path := "/hooks/intake"
  callers := []
  requirement := none
  admission := none
  crossOrigin := none
  forwardsAuthorization := true
  oauth := none
  delegation := none
  digest := "d1"

def hookRequest (authorization : String) : ForwardedRequest where
  method := "POST"
  url := "https://notes.example/hooks/intake"
  host := "notes.example"
  rawPath := "/hooks/intake"
  headers := fun name => if name = "Authorization" then some authorization else none
  requestId := "r1"

theorem a_basic_secret_is_forwarded :
    forwardsAuthorization hookRow (hookRequest "Basic dXNlcjpzM2NyZXQ=") = true ∧
      includes "Basic dXNlcjpzM2NyZXQ=" apiKeyPrefix = false ∧
      ∀ password, basicPassword (some "Basic dXNlcjpzM2NyZXQ=") = some password →
      includes password apiKeyPrefix = false := by
  have hforwards : forwardsAuthorization hookRow (hookRequest "Basic dXNlcjpzM2NyZXQ=") = true := by decide
  have hsafe := no_key_forwarded ⟨by decide, rfl⟩ rfl hforwards
  exact ⟨hforwards, hsafe.1, hsafe.2.2.2.1⟩

end Fabrika.Proxy
