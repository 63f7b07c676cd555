/-
  Fabrika.App.TokensProofs — a token verifies exactly as it was issued: only a text `sign`
  answered for the purpose under a key of the list, until it expires, and to its own claims.
-/

import Fabrika.App.Tokens
import Fabrika.Lib.Text

namespace Fabrika.App.Tokens

open Fabrika.Lib
open Fabrika.Lib.Double (Number)

/-! ## The keys read -/

/-- What `readTokenKeys` holds of a list. -/
structure Sound (keys : List TokenKey) : Prop where
  ids : ∀ key ∈ keys, isKeyId key.id = true
  nodup : (keys.map TokenKey.id).Nodup

variable {key : TokenKey} {keys : List TokenKey} {token : Units} {data claims : Json Number} {expiresAt : Nat}
variable {purpose : String} {now : Time} {tokens : SignedTokens} {declared : RuntimePurpose}

theorem readEntry_spec {entry : Units} (h : readEntry keys entry = some key) :
    isKeyId key.id = true ∧ key.id ∉ keys.map TokenKey.id := by
  unfold readEntry at h
  split at h
  · cases h
  · dsimp only at h
    split at h
    · cases h
    · split at h
      · cases h
      · next hfault =>
        simp only [Bool.or_eq_true, Bool.not_eq_true', List.any_eq_true, decide_eq_true_eq, not_or, not_exists, not_and,
          Bool.not_eq_false] at hfault
        obtain ⟨⟨hid, -⟩, hfresh⟩ := hfault
        cases h
        refine ⟨hid, fun hmem => ?_⟩
        obtain ⟨other, hother, heq⟩ := List.mem_map.mp hmem
        exact hfresh other hother heq

theorem readEntries_sound {read : List TokenKey} {entries : List Units} (hkeys : Sound keys)
    (h : readEntries keys entries = some read) : Sound read := by
  induction entries generalizing keys with
  | nil =>
    cases h
    exact hkeys
  | cons entry rest ih =>
    obtain ⟨key, hkey, hrest⟩ := Option.bind_eq_some_iff.mp h
    obtain ⟨hid, hfresh⟩ := readEntry_spec hkey
    refine ih ⟨?_, ?_⟩ hrest
    · intro other hother
      rcases List.mem_append.mp hother with hother | hother
      · exact hkeys.ids other hother
      · rw [List.mem_singleton.mp hother]
        exact hid
    · rw [List.map_append, List.map_singleton, List.nodup_append_comm, List.singleton_append, List.nodup_cons]
      exact ⟨hfresh, hkeys.nodup⟩

theorem Accepted.sound (h : Accepted keys) : Sound keys := by
  obtain ⟨setting, purposes, problems, problems', h⟩ := h
  unfold readTokenKeys at h
  dsimp only at h
  split at h
  · cases h
  · split at h
    · cases h
    · split at h
      · cases h
      · next keys' hread =>
        obtain ⟨heq, -⟩ := Prod.mk.inj h
        rw [← Option.some.inj heq]
        exact readEntries_sound ⟨by simp, by simp⟩ hread

theorem Sound.eq_of_id (h : Sound keys) {a b : TokenKey} (ha : a ∈ keys) (hb : b ∈ keys) (hid : a.id = b.id) : a = b :=
  List.inj_on_of_nodup_map h.nodup ha hb hid

theorem Sound.find (h : Sound keys) (hkey : key ∈ keys) : keys.find? (·.id = key.id) = some key := by
  cases hfind : keys.find? (·.id = key.id) with
  | none => exact absurd (List.find?_eq_none.mp hfind key hkey) (by simp)
  | some found =>
    have hid : found.id = key.id := by simpa using List.find?_some hfind
    rw [h.eq_of_id (List.mem_of_find?_eq_some hfind) hkey hid]

/-! ## Segments -/

theorem isUrlUnit_point : isUrlUnit 0x2e = false := by decide

theorem isUrlUnit_urlDigit : ∀ n < 64, isUrlUnit (Base64.urlDigit n).toNat = true := by decide +kernel

theorem base64url_units (bytes : Bytes) : ∀ u ∈ base64url bytes, isUrlUnit u = true := by
  intro u hu
  obtain ⟨c, hc, rfl⟩ := List.mem_map.mp hu
  obtain ⟨n, hn, rfl⟩ := List.mem_map.mp hc
  exact isUrlUnit_urlDigit n (Base64.sextets_lt bytes n hn)

theorem isBase64url_base64url {bytes : Bytes} (h : bytes ≠ []) : isBase64url (base64url bytes) = true := by
  have hne : base64url bytes ≠ [] := by
    rw [base64url, Base64.encodeUrl]
    obtain _ | ⟨_, _ | ⟨_, _ | ⟨_, _⟩⟩⟩ := bytes
    · exact absurd rfl h
    · simp [Base64.sextets]
    · simp [Base64.sextets]
    · simp [Base64.sextets]
  simp only [isBase64url, hne, ne_eq, not_false_eq_true, decide_true, Bool.true_and, List.all_eq_true]
  exact base64url_units bytes

theorem fromBase64url_base64url (bytes : Bytes) : fromBase64url (base64url bytes) = bytes := by
  have hid : Char.ofNat ∘ Char.toNat = id := by
    funext c
    simp
  rw [fromBase64url, base64url, List.map_map, hid, List.map_id, Base64.decodeUrl_encodeUrl]

theorem not_mem_of_all {text : Units} (h : text.all isUrlUnit = true) : 0x2e ∉ text := by
  intro hmem
  have hunit := List.all_eq_true.mp h _ hmem
  rw [isUrlUnit_point] at hunit
  cases hunit

theorem point_not_mem_id {id : Units} (h : isKeyId id = true) : 0x2e ∉ id := by
  simp only [isKeyId, Bool.and_eq_true] at h
  exact not_mem_of_all h.2

/-- The text of three segments. -/
def joined (id payload given : Units) : Units := id ++ 0x2e :: payload ++ 0x2e :: given

theorem joined_eq (id payload given : Units) : joined id payload given = [0x2e].intercalate [id, payload, given] := by
  simp [joined, List.intercalate]

theorem split_joined {id payload given : Units} (hid : 0x2e ∉ id) (hpayload : 0x2e ∉ payload) (hgiven : 0x2e ∉ given) :
    (joined id payload given).splitOn 0x2e = [id, payload, given] := by
  rw [joined_eq]
  refine List.splitOn_intercalate _ ?_ (by simp)
  intro part hpart
  simp only [List.mem_cons, List.not_mem_nil, or_false] at hpart
  rcases hpart with rfl | rfl | rfl
  · exact hid
  · exact hpayload
  · exact hgiven

theorem joined_split {token id payload given : Units} (h : token.splitOn 0x2e = [id, payload, given]) :
    token = joined id payload given := by
  rw [joined_eq, ← h, List.intercalate_splitOn]

/-- Base64url texts of the same bytes are the same text. -/
theorem buffer_inj {a b : Units} (ha : isBase64url a = true) (hb : isBase64url b = true) (h : buffer a = buffer b) : a = b := by
  have hunicode : ∀ text, isBase64url text = true → IsUnicode text := by
    intro text htext
    apply isUnicode_of_lt
    intro u hu
    simp only [isBase64url, Bool.and_eq_true, List.all_eq_true] at htext
    have hunit := htext.2 u hu
    simp only [isUrlUnit, Bool.or_eq_true, Bool.and_eq_true, decide_eq_true_eq] at hunit
    omega
  have hread := congrArg (fun bytes => Urlencoded.decodeUtf8 bytes.length bytes) h
  simp only [buffer, Urlencoded.utf8, Urlencoded.decodeUtf8_encode _ _ le_rfl] at hread
  exact usvString_inj (hunicode a ha) (hunicode b hb) (String.toList_inj.mp hread)

/-! ## The payload -/

theorem wholeNumber_eq {n : Nat} (h : n < 2 ^ 53) : ∃ x : Double, x.value = n ∧ wholeNumber n = .finite x := by
  have hdouble : IsDouble (n : ℚ) :=
    ⟨n, 0, by rw [abs_of_nonneg (by positivity)]; exact_mod_cast h, by norm_num, by norm_num, by simp⟩
  refine ⟨⟨n, hdouble⟩, rfl, ?_⟩
  rw [wholeNumber, Double.nearest_eq _ (x := ⟨n, hdouble⟩) (Double.round_of_isDouble hdouble)]

theorem intOf_wholeNumber {n : Nat} (h : n < 2 ^ 53) : intOf (wholeNumber n) = some (n : Int) := by
  obtain ⟨x, hx, hnumber⟩ := wholeNumber_eq h
  have hrange : |(n : Int)| < 2 ^ 53 := by
    rw [abs_of_nonneg (by positivity)]
    exact_mod_cast h
  rw [hnumber, intOf, hx, Rat.den_natCast, Rat.num_natCast, if_pos ⟨rfl, hrange⟩]

theorem proper_body (hdata : data.Proper) : (body purpose expiresAt data).Proper := by
  refine Json.proper_object ["p", "x", "c"] (.refl _) (by decide) (by decide) ?_
  intro field hfield
  simp only [List.mem_cons, List.not_mem_nil, or_false] at hfield
  rcases hfield with rfl | rfl | rfl
  · exact .str (codeUnits_lt purpose)
  · exact .num _
  · exact hdata

theorem payloadSchema_body (hsafe : expiresAt < 2 ^ 53) (data : Json Number) :
    payloadSchema (body purpose expiresAt data).onWire = some ⟨codeUnits purpose, expiresAt, some data.onWire⟩ := by
  obtain ⟨x, hx, hnumber⟩ := wholeNumber_eq hsafe
  have hint := intOf_wholeNumber hsafe
  rw [hnumber] at hint
  have hwire : (body purpose expiresAt data).onWire =
      .obj (Json.names [("p", Json.text purpose), ("x", .num (.finite x)), ("c", data.onWire)]) := by
    rw [body, hnumber, Json.onWire_object]
    rfl
  have hnames : (Json.names [("p", Json.text purpose), ("x", .num (.finite x)), ("c", data.onWire)]).all
      (fun field => [codeUnits "p", codeUnits "x", codeUnits "c"].contains field.1) = true := by
    simp [Json.names]
  rw [hwire, payloadSchema, if_pos hnames, Json.lookup_names, Json.lookup_names, Json.lookup_names]
  show (intOf (.finite x)).map (fun read => Payload.mk (codeUnits purpose) read (some data.onWire)) = _
  rw [hint]
  rfl

/-- What `sign` wrote is what `verify` reads. -/
theorem parsePayload_payloadOf {purpose : String} {expiresAt : Nat} {data : Json Number} (hdata : data.Proper)
    (hsafe : expiresAt < 2 ^ 53) :
    parsePayload (payloadOf purpose expiresAt data) = some ⟨codeUnits purpose, expiresAt, some data.onWire⟩ := by
  have hproper : (body purpose expiresAt data).Proper := proper_body hdata
  have htext : utf8Text (buffer (Json.stringify (body purpose expiresAt data))) =
      Json.stringify (body purpose expiresAt data) := by
    rw [utf8Text, buffer, Urlencoded.utf8, Urlencoded.decodeUtf8_encode _ _ le_rfl, String.ofList_toList,
      codeUnits_usvString (Json.isUnicode_stringify hproper)]
  rw [parsePayload, payloadOf, fromBase64url_base64url, htext, Json.parse_stringify hproper, Option.bind_some,
    payloadSchema_body hsafe]

theorem payload_bytes (hdata : data.Proper) (hsafe : expiresAt < 2 ^ 53) :
    buffer (Json.stringify (body purpose expiresAt data)) ≠ [] := by
  intro hnil
  have hread := @parsePayload_payloadOf purpose expiresAt data hdata hsafe
  have hempty : parsePayload (base64url []) = none := rfl
  rw [payloadOf, hnil, hempty] at hread
  cases hread

/-! ## One call of sign -/

theorem sign_ok {site : String} {signs : List String} {claims : Value} {days : Days}
    (h : sign tokens now site signs purpose claims days = .ok token) :
    ∃ declared count data key rest, tokens.purposes purpose = some declared ∧ days.value = some count ∧ 1 ≤ count ∧
    count ≤ declared.maxDays ∧
      declared.claims.parse claims.json = some data ∧ tokens.keys = key :: rest ∧
      token = joined key.id (payloadOf purpose (now.seconds + count.toNat * daySeconds) data)
        (signature key (payloadOf purpose (now.seconds + count.toNat * daySeconds) data)) := by
  unfold sign at h
  split at h
  · cases h
  · next declared hdeclared =>
    split at h
    · cases h
    · next count hcount =>
      split at h
      · cases h
      · next data hdata =>
        split at h
        · cases h
        · next key rest hkeys =>
          simp only [Option.filter_eq_some_iff, Bool.and_eq_true, decide_eq_true_eq] at hcount
          obtain ⟨hvalue, hleast, hmost⟩ := hcount
          have hpurpose : tokens.purposes purpose = some declared := by
            split at hdeclared
            · exact hdeclared
            · cases hdeclared
          exact ⟨declared, count, data, key, rest, hpurpose, hvalue, hleast, hmost, hdata, hkeys, (Except.ok.inj h).symm⟩

theorem sign_of {site : String} {signs : List String} {claims : Value} {days : Days} {count : Int} {rest : List TokenKey}
    (hsigns : signs.contains purpose = true) (hdeclared : tokens.purposes purpose = some declared)
    (hcount : days.value = some count) (hrange : (1 ≤ count && count ≤ declared.maxDays) = true)
    (hdata : declared.claims.parse claims.json = some data) (hkeys : tokens.keys = key :: rest) :
    sign tokens now site signs purpose claims days =
      .ok (joined key.id (payloadOf purpose (now.seconds + count.toNat * daySeconds) data)
        (signature key (payloadOf purpose (now.seconds + count.toNat * daySeconds) data))) := by
  have hdays : days.value.filter (fun count : Int => 1 ≤ count && count ≤ declared.maxDays) = some count := by
    rw [hcount, Option.filter_some, if_pos hrange]
  unfold sign
  rw [if_pos hsigns, hdeclared]
  dsimp only
  rw [hdays]
  dsimp only
  rw [hdata, hkeys]
  rfl

/-- What a call wrote: its token, by the key it signed with and the claims it carries. -/
structure Signing.Wrote (s : Signing) (key : TokenKey) (data : Json Number) : Prop where
  under : s.Under key
  carries : s.Carries data
  proper : data.Proper
  safe : s.expiresAt < 2 ^ 53
  id : isKeyId key.id = true
  token_eq : s.token = joined key.id (payloadOf s.purpose s.expiresAt data) (signature key (payloadOf s.purpose s.expiresAt data))

theorem Signing.wrote (s : Signing) : ∃ key data, s.Wrote key data := by
  obtain ⟨declared, count, data, key, rest, hdeclared, hcount, hleast, hmost, hdata, hkeys, htoken⟩ := sign_ok s.signed
  have hexpires : s.expiresAt = s.now.seconds + count.toNat * daySeconds := by rw [Signing.expiresAt, hcount, Option.getD_some]
  refine ⟨key, data, ?_, ⟨declared, hdeclared, hdata⟩, declared.claims.proper s.claims.proper hdata, ?_, ?_, ?_⟩
  · rw [Signing.Under, hkeys, List.head?_cons]
  · have hnow : s.now.seconds ≤ 8640000000000 := Nat.div_le_div_right s.now.le
    have hbound := declared.bounded
    have hdays : count.toNat ≤ 3650 := by
      unfold tokenMaxDays at hbound
      omega
    rw [hexpires]
    unfold daySeconds
    omega
  · exact s.accepted.sound.ids key (by rw [hkeys]; exact List.mem_cons_self)
  · rw [hexpires]
    exact htoken

theorem Signing.Under.eq {s : Signing} {a b : TokenKey} (ha : s.Under a) (hb : s.Under b) : a = b :=
  Option.some.inj (ha.symm.trans hb)

theorem Signing.Carries.eq {s : Signing} {a b : Json Number} (ha : s.Carries a) (hb : s.Carries b) : a = b := by
  obtain ⟨declared, hdeclared, ha⟩ := ha
  obtain ⟨other, hother, hb⟩ := hb
  obtain rfl := Option.some.inj (hdeclared.symm.trans hother)
  exact Option.some.inj (ha.symm.trans hb)

/-! ## Verifying -/

theorem signature_ok (key : TokenKey) (payload : Units) : isBase64url (signature key payload) = true := by
  apply isBase64url_base64url
  have hlength := Hmac.length_hmac key.secret (buffer (signedText key.id payload))
  intro hnil
  rw [hnil] at hlength
  cases hlength

/-- What makes a token answer claims: a key of the list signed its payload, and the payload
    reads as claims of the purpose that have not expired. -/
structure Genuine (tokens : SignedTokens) (now : Time) (purpose : String) (token : Units) (claims : Json Number) (key : TokenKey)
    (payload : Units) (body : Payload) (declared : RuntimePurpose) : Prop where
  key_mem : key ∈ tokens.keys
  token_eq : token = joined key.id payload (signature key payload)
  encoded : isBase64url payload = true
  read : parsePayload payload = some body
  known : tokens.purposes purpose = some declared
  purpose_eq : body.p = codeUnits purpose
  alive : now.seconds < body.x
  parsed : body.c.bind declared.claims.parse = some claims

theorem three_segments {segments : List Units} (hfew : ¬ segments.length > 3) (hpayload : segments.getD 1 [] ≠ [])
    (hgiven : segments.getD 2 [] ≠ []) :
    segments = [segments.getD 0 [], segments.getD 1 [], segments.getD 2 []] := by
  match segments, hfew, hpayload, hgiven with
  | [], _, hpayload, _ => exact absurd rfl hpayload
  | [_], _, hpayload, _ => exact absurd rfl hpayload
  | [_, _], _, _, hgiven => exact absurd rfl hgiven
  | [_, _, _], _, _, _ => rfl
  | _ :: _ :: _ :: _ :: rest, hfew, _, _ =>
    simp only [List.length_cons] at hfew
    omega

theorem ne_nil_of_isBase64url {text : Units} (h : isBase64url text = true) : text ≠ [] := by
  simp only [isBase64url, Bool.and_eq_true, decide_eq_true_eq] at h
  exact h.1

theorem isRecord_parse {value : Option (Json Number)} (h : value.bind declared.claims.parse = some claims) :
    isRecord claims = true := by
  obtain ⟨value, -, hparse⟩ := Option.bind_eq_some_iff.mp h
  obtain ⟨fields, rfl⟩ := declared.claims.object hparse
  rfl

theorem genuine_of_verify (h : verify tokens now purpose token = .ok claims) :
    ∃ key payload body declared, Genuine tokens now purpose token claims key payload body declared := by
  unfold verify at h
  dsimp only at h
  split at h
  · next key declared hkey hdeclared =>
    split at h
    · cases h
    · next hform =>
      simp only [Bool.or_eq_true, decide_eq_true_eq, Bool.not_eq_true', not_or, Bool.not_eq_false] at hform
      obtain ⟨⟨hfew, hpayload⟩, hgiven⟩ := hform
      split at h
      · cases h
      · next hsame =>
        split at h
        · cases h
        · next body hbody =>
          split at h
          · cases h
          · next hpurpose =>
            split at h
            · cases h
            · next halive =>
              split at h
              · cases h
              · next parsed hparsed =>
                rw [if_pos (isRecord_parse hparsed)] at h
                cases h
                have hsegments := three_segments hfew (ne_nil_of_isBase64url hpayload) (ne_nil_of_isBase64url hgiven)
                have hid : key.id = (token.splitOn 0x2e).getD 0 [] := by simpa using List.find?_some hkey
                have hsignature := buffer_inj hgiven (signature_ok key _) (not_ne_iff.mp hsame)
                refine ⟨key, _, body, declared, ⟨List.mem_of_find?_eq_some hkey, ?_, hpayload, hbody, hdeclared,
                  not_ne_iff.mp hpurpose, by omega, hparsed⟩⟩
                rw [← hsignature, hid]
                exact joined_split hsegments
  · cases h

theorem verify_of_genuine {payload : Units} {body : Payload} (hkeys : Sound tokens.keys)
    (h : Genuine tokens now purpose token claims key payload body declared) : verify tokens now purpose token = .ok claims := by
  have hsignature := signature_ok key payload
  have hpoint : ∀ {text : Units}, isBase64url text = true → 0x2e ∉ text := by
    intro text htext
    simp only [isBase64url, Bool.and_eq_true] at htext
    exact not_mem_of_all htext.2
  have hsegments : token.splitOn 0x2e = [key.id, payload, signature key payload] := by
    rw [h.token_eq]
    exact split_joined (point_not_mem_id (hkeys.ids key h.key_mem)) (hpoint h.encoded) (hpoint hsignature)
  have halive : ¬ body.x ≤ now.seconds := by
    have := h.alive
    omega
  unfold verify
  dsimp only
  rw [hsegments]
  simp [hkeys.find h.key_mem, h.known, h.encoded, hsignature, h.read, h.purpose_eq, halive, h.parsed, isRecord_parse h.parsed]

/-- A token that verifies is the token of a call that signed it, with all it was asked for. -/
theorem issued_of_genuine {payload : Units} {body : Payload} (hkeys : Sound tokens.keys) {history : List Signing}
    (hforge : Unforgeable tokens.keys history token) (h : Genuine tokens now purpose token claims key payload body declared) :
    ∃ s ∈ history, s.purpose = purpose ∧ s.token = token ∧ s.Under key ∧ now.seconds < s.expiresAt := by
  obtain ⟨s, hs, signer, data, hunder, hcarries, hsecret, htext⟩ := hforge key h.key_mem payload h.encoded h.token_eq
  obtain ⟨key', data', hwrote⟩ := s.wrote
  obtain rfl := hunder.eq hwrote.under
  obtain rfl := hcarries.eq hwrote.carries
  obtain ⟨hid, hpayload⟩ := Text.cut_first_inj htext (point_not_mem_id (hkeys.ids key h.key_mem)) (point_not_mem_id hwrote.id)
  obtain rfl : key = signer := by
    cases key
    cases signer
    rw [TokenKey.mk.injEq]
    exact ⟨hid, hsecret⟩
  have hread := h.read
  rw [hpayload, parsePayload_payloadOf hwrote.proper hwrote.safe] at hread
  obtain rfl := Option.some.inj hread
  refine ⟨s, hs, codeUnits_injective h.purpose_eq, ?_, hunder, ?_⟩
  · rw [hwrote.token_eq, h.token_eq, hpayload]
  · exact Int.ofNat_lt.mp h.alive

/-- For a list of keys that was read: claims are answered only for a token that `sign` answered
    for the purpose under a key of the list, before the second it expires; and every such token
    answers the claims its purpose's schema reads from what it carries, wherever its key stands
    in the list. -/
theorem tokens_verify_as_issued (tokens : SignedTokens) (hkeys : Accepted tokens.keys) :
    (∀ (history : List Signing) (now : Time) (purpose : String) (token : Units) (claims : Json Number),
      Unforgeable tokens.keys history token → verify tokens now purpose token = .ok claims →
      ∃ s ∈ history, s.purpose = purpose ∧ s.token = token ∧ (∃ key ∈ tokens.keys, s.Under key) ∧ now.seconds < s.expiresAt) ∧
    ∀ (s : Signing) (key : TokenKey) (data claims : Json Number) (declared : RuntimePurpose) (now : Time),
      s.Under key → key ∈ tokens.keys → s.Carries data → tokens.purposes s.purpose = some declared →
      declared.claims.parse data.onWire = some claims → now.seconds < s.expiresAt →
      verify tokens now s.purpose s.token = .ok claims := by
  have hsound := hkeys.sound
  constructor
  · intro history now purpose token claims hforge hverify
    obtain ⟨key, payload, body, declared, hgenuine⟩ := genuine_of_verify hverify
    obtain ⟨s, hs, hpurpose, htoken, hunder, halive⟩ := issued_of_genuine hsound hforge hgenuine
    exact ⟨s, hs, hpurpose, htoken, ⟨key, hgenuine.key_mem, hunder⟩, halive⟩
  · intro s key data claims declared now hunder hkey hcarries hdeclared hparse halive
    obtain ⟨key', data', hwrote⟩ := s.wrote
    obtain rfl := hunder.eq hwrote.under
    obtain rfl := hcarries.eq hwrote.carries
    refine verify_of_genuine hsound ⟨hkey, hwrote.token_eq, isBase64url_base64url ?_,
      parsePayload_payloadOf hwrote.proper hwrote.safe, hdeclared, rfl, Int.ofNat_lt.mpr halive, hparse⟩
    exact payload_bytes hwrote.proper hwrote.safe

/-! ## A rotated key -/

/-- Claims of one text, `email`. -/
def emailClaims : Schema where
  parse
    | .obj [(name, .str email)] => if name = codeUnits "email" then some (.obj [(name, .str email)]) else none
    | _ => none
  object := by
    intro value claims h
    split at h
    · split at h
      · exact ⟨_, (Option.some.inj h).symm⟩
      · cases h
    · cases h
  proper := by
    intro value claims hproper h
    split at h
    · split at h
      · cases h
        exact hproper
      · cases h
    · cases h

def unsubscribe (purpose : String) : Option RuntimePurpose :=
  if purpose = "unsubscribe" then some ⟨emailClaims, 400, by decide⟩ else none

def oldKeys : List TokenKey := [⟨codeUnits "key_0001", List.replicate 32 0⟩]

def rotatedKeys : List TokenKey := ⟨codeUnits "key_0002", List.replicate 32 255⟩ :: oldKeys

/-- The text of thirty-two zero bytes is `A`s. -/
theorem accepted_oldKeys : Accepted oldKeys :=
  ⟨some (codeUnits "key_0001:" ++ List.replicate 43 0x41), some ["unsubscribe"], [], [], by decide⟩

theorem accepted_rotatedKeys : Accepted rotatedKeys :=
  ⟨some (codeUnits "key_0002:" ++ List.replicate 42 0x5f ++ 0x38 :: codeUnits ",key_0001:" ++ List.replicate 43 0x41),
    some ["unsubscribe"], [], [], by decide⟩

def subscriber : Json Number := Json.object [("email", Json.text "a@b.c")]

theorem proper_subscriber : subscriber.Proper := by
  refine Json.proper_object ["email"] (.refl _) (by decide) (by decide) fun field hfield => ?_
  rw [List.mem_singleton.mp hfield]
  exact .str (codeUnits_lt "a@b.c")

def oldKey : TokenKey := ⟨codeUnits "key_0001", List.replicate 32 0⟩

def signedAt : Time := ⟨1700000000000, by decide⟩

def subscriberPayload : Units := payloadOf "unsubscribe" (signedAt.seconds + (30 : Int).toNat * daySeconds) subscriber

/-- A token for thirty days, signed before the keys were rotated. -/
def subscriberSigning : Signing where
  tokens := ⟨unsubscribe, oldKeys⟩
  accepted := accepted_oldKeys
  now := signedAt
  site := "mail"
  signs := ["unsubscribe"]
  purpose := "unsubscribe"
  claims := ⟨subscriber, proper_subscriber⟩
  days := ⟨some 30, "30"⟩
  token := joined oldKey.id subscriberPayload (signature oldKey subscriberPayload)
  signed := sign_of rfl rfl rfl (by decide) rfl rfl

/-- Its text is the one text it closes with an HMAC of, so the call that wrote it is enough. -/
theorem unforgeable_subscriber : Unforgeable rotatedKeys [subscriberSigning] subscriberSigning.token := by
  intro key hkey payload hpayload htoken
  have hsound := accepted_rotatedKeys.sound
  have hold : oldKey ∈ rotatedKeys := List.mem_cons_of_mem _ List.mem_cons_self
  have hpoint : ∀ {text : Units}, isBase64url text = true → 0x2e ∉ text := by
    intro text htext
    simp only [isBase64url, Bool.and_eq_true] at htext
    exact not_mem_of_all htext.2
  have hsplit : subscriberSigning.token.splitOn 0x2e = [oldKey.id, subscriberPayload, signature oldKey subscriberPayload] :=
    split_joined (point_not_mem_id (hsound.ids oldKey hold))
      (hpoint (isBase64url_base64url (payload_bytes proper_subscriber (by decide))))
      (hpoint (signature_ok oldKey subscriberPayload))
  rw [htoken, ← joined, split_joined (point_not_mem_id (hsound.ids key hkey)) (hpoint hpayload)
    (hpoint (signature_ok key payload))] at hsplit
  obtain ⟨hid, hsame, -⟩ : key.id = oldKey.id ∧ payload = subscriberPayload ∧ _ := by simpa using hsplit
  obtain rfl : key = oldKey := Option.some.inj ((hsound.find hkey).symm.trans (by rw [hid]; exact hsound.find hold))
  rw [hsame]
  exact ⟨subscriberSigning, List.mem_singleton_self _, oldKey, subscriber, rfl, ⟨_, rfl, rfl⟩, rfl, rfl⟩

theorem verified_after_rotation :
    verify ⟨unsubscribe, rotatedKeys⟩ ⟨1700000001000, by decide⟩ "unsubscribe" subscriberSigning.token = .ok subscriber ∧
      ∃ s ∈ [subscriberSigning], s.purpose = "unsubscribe" ∧ s.token = subscriberSigning.token ∧
        (∃ key ∈ rotatedKeys, s.Under key) ∧ 1700000001 < s.expiresAt := by
  have hissued := tokens_verify_as_issued ⟨unsubscribe, rotatedKeys⟩ accepted_rotatedKeys
  have hverified := hissued.2 subscriberSigning _ subscriber subscriber ⟨emailClaims, 400, by decide⟩
    ⟨1700000001000, by decide⟩ rfl (List.mem_cons_of_mem _ List.mem_cons_self) ⟨_, rfl, rfl⟩ rfl rfl (by decide)
  exact ⟨hverified, hissued.1 [subscriberSigning] _ "unsubscribe" _ subscriber unforgeable_subscriber hverified⟩

end Fabrika.App.Tokens
