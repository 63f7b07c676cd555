/-
  Fabrika.Control.VaultProofs — no vault secret becomes unreadable (see `Fabrika.Control.Vault`).

  A row is sealed under one of the two master keys for the value last given (`Sealed`); re-wrapping
  the data key a row still holds keeps it so (`Sealed.rewrapped`). Two things break it, and a run
  without them keeps every row (`Meets`): a value that starts with a byte order mark reads back
  without it, and `reencryptAll` writes the data key it read over the one a `rotate` put there since.
-/

import Fabrika.Control.Vault

namespace Fabrika.Control.Vault

open Fabrika.AuthCore.OpsDump Fabrika.Lib

variable {gcm : Gcm} {oldKey newKey : Key}

/-! ## Sealed envelopes -/

@[simp] theorem fromBase64_toBase64 (bytes : Bytes) : fromBase64 (toBase64 bytes) = some bytes := by
  simp [fromBase64, toBase64, Base64.decode_encode]

/-- The text starts with U+FEFF. -/
def Marked (value : String) : Prop := value.toList.head? = some '\ufeff'

variable {value : String} {w : World}

theorem decodeText_utf8 (h : ¬Marked value) : decodeText (utf8 value.toList) = value := by
  unfold decodeText
  rw [decodeUtf8_utf8]
  split
  · next e => exact (String.toList_eq_nil_iff.mp e).symm
  · next c rest e =>
    have hc : c ≠ '\ufeff' := by
      intro hc
      exact h (by rw [Marked, e, hc, List.head?_cons])
    rw [if_neg hc, ← e, String.ofList_toList]

variable (gcm) in
/-- The envelope of the value under the master key. -/
def Sealed (masterKey : Key) (env : Envelope) (value : String) : Prop :=
  ∃ random : Random, env = seal_ gcm masterKey value random

variable {key : Key}

theorem unwrap_eq {masterKey key iv dek : Bytes} :
    unwrap gcm masterKey (toBase64 (gcm.encrypt key iv dek)) (toBase64 iv) = if masterKey = key then some dek else none := by
  simp only [unwrap, fromBase64_toBase64, Option.bind_eq_bind, Option.bind_some]
  split
  · next e =>
    subst e
    exact gcm.decrypts _ _ _
  · next hne => exact gcm.refuses _ _ _ _ _ (fun e => hne (Prod.mk.inj e).1)

theorem open_seal {masterKey : Key} {random : Random} :
    open_ gcm masterKey (seal_ gcm key value random) = if masterKey = key then some (decodeText (utf8 value.toList))
    else none := by
  have hkey : importKey random.dek = some random.dek := if_pos (.inr (.inr random.length))
  unfold open_ seal_
  simp only [unwrap_eq]
  split
  · simp [hkey, gcm.decrypts]
  · rfl

/-- A value under one data key beside another data key opens under no master key. -/
theorem open_mixed {masterKey key dek dek' iv valueIv plaintext : Bytes} (hne : dek' ≠ dek) :
    open_ gcm masterKey ⟨toBase64 (gcm.encrypt dek valueIv plaintext), toBase64 valueIv, toBase64 (gcm.encrypt key iv dek'),
      toBase64 iv⟩ = none := by
  have hrefuses : gcm.decrypt dek' valueIv (gcm.encrypt dek valueIv plaintext) = none :=
    gcm.refuses _ _ _ _ _ fun e => hne (Prod.mk.inj e).1
  unfold open_
  simp only [unwrap_eq]
  by_cases hkey : masterKey = key
  · cases himport : importKey dek' with
    | none => simp [hkey, himport]
    | some imported =>
      have himported : imported = dek' := by
        unfold importKey at himport
        split at himport
        · exact (Option.some.inj himport).symm
        · cases himport
      simp [hkey, himport, himported, hrefuses]
  · rw [if_neg hkey]
    rfl

theorem Sealed.opens {env : Envelope} (h : Sealed gcm key env value) (hmark : ¬Marked value) :
    open_ gcm key env = some value := by
  obtain ⟨random, rfl⟩ := h
  rw [open_seal, if_pos rfl, decodeText_utf8 hmark]

theorem Sealed.opened {key masterKey : Key} {env : Envelope} {value opened : String} (h : Sealed gcm key env value)
    (hmark : ¬Marked value) (hopen : open_ gcm masterKey env = some opened) : opened = value := by
  obtain ⟨random, rfl⟩ := h
  rw [open_seal, decodeText_utf8 hmark] at hopen
  split at hopen
  · exact (Option.some.inj hopen).symm
  · cases hopen

/-- Re-wrapping the data key the envelope holds leaves its value readable under the new master key. -/
theorem Sealed.rewrapped {env : Envelope} {value wrappedDek dekIv : String} {iv : Bytes} (h : Sealed gcm key env value)
    (hrewrap : rewrapDek gcm oldKey newKey env.wrappedDek env.dekIv iv = some (wrappedDek, dekIv)) :
    Sealed gcm newKey { env with wrappedDek, dekIv } value := by
  obtain ⟨random, rfl⟩ := h
  unfold rewrapDek seal_ at hrewrap
  simp only [unwrap_eq] at hrewrap
  split at hrewrap
  · cases hrewrap
    exact ⟨⟨random.dek, random.valueIv, iv, random.length⟩, rfl⟩
  · cases hrewrap

/-! ## The condition -/

/-- No value starts with a byte order mark, and a row that is re-wrapped still holds the data key that was read. -/
def Meets (w : World) : Event → Prop
  | .putSecret _ _ _ _ value _ => ¬Marked value
  | .rotate _ _ value _ _ => ¬Marked value
  | .rewrap _ _ => ∀ row rest, w.reencryption = .running (row :: rest) → ∀ stored ∈ w.rows, stored.id = row.id →
      stored.envelope.wrappedDek = row.envelope.wrappedDek ∧ stored.envelope.dekIv = row.envelope.dekIv
  | _ => True

variable (gcm oldKey newKey) in
def MeetsAll (w : World) : List Event → Prop
  | [] => True
  | event :: rest => Meets w event ∧ MeetsAll (w.step gcm oldKey newKey event) rest

theorem after_append (a b : List Event) :
    w.after gcm oldKey newKey (a ++ b) = (w.after gcm oldKey newKey a).after gcm oldKey newKey b := List.foldl_append

theorem after_cons (event : Event) (rest : List Event) :
    w.after gcm oldKey newKey (event :: rest) = (w.step gcm oldKey newKey event).after gcm oldKey newKey rest := rfl

theorem meetsAll_append {a b : List Event} : MeetsAll gcm oldKey newKey w (a ++ b) ↔
    MeetsAll gcm oldKey newKey w a ∧ MeetsAll gcm oldKey newKey (w.after gcm oldKey newKey a) b := by
  induction a generalizing w with
  | nil => simp [MeetsAll, World.after]
  | cons event rest ih =>
    simp only [List.cons_append, MeetsAll, ih, and_assoc, after_cons]

/-! ## What every step keeps -/

variable (gcm oldKey newKey) in
structure Inv (w : World) : Prop where
  rows : ∀ row ∈ w.rows, ∃ value binding, w.given row.id = some value ∧ ¬Marked value ∧
    Sealed gcm (Binding.key oldKey newKey binding) row.envelope value
  rotations : ∀ rotation ∈ w.rotations, ¬Marked rotation.value ∧
    ∃ binding, Sealed gcm (Binding.key oldKey newKey binding) rotation.envelope rotation.value

theorem inv_start : Inv gcm oldKey newKey .start := ⟨(fun _ h => nomatch h), (fun _ h => nomatch h)⟩

theorem inv_step {event : Event} (h : Inv gcm oldKey newKey w) (hmeets : Meets w event) :
    Inv gcm oldKey newKey (w.step gcm oldKey newKey event) := by
  cases event with
  | putSecret binding id scope label value random =>
    simp only [World.step]
    split
    · exact h
    next hfree =>
    refine ⟨fun row hrow => ?_, h.rotations⟩
    rcases List.mem_append.mp hrow with hrow | hrow
    · obtain ⟨v, b, hgiven, hmark, hsealed⟩ := h.rows row hrow
      have hne : row.id ≠ id := fun e => hfree (List.any_eq_true.mpr ⟨row, hrow, by simpa using e⟩)
      exact ⟨v, b, by simp [Function.update_of_ne hne, hgiven], hmark, hsealed⟩
    · obtain rfl := List.mem_singleton.mp hrow
      exact ⟨value, binding, Function.update_self _ _ _, hmeets, random, rfl⟩
  | rotate binding ref value random now =>
    simp only [World.step]
    split
    · exact h
    next row _ =>
    refine ⟨h.rows, fun rotation hrotation => ?_⟩
    rcases List.mem_append.mp hrotation with hrotation | hrotation
    · exact h.rotations rotation hrotation
    · obtain rfl := List.mem_singleton.mp hrotation
      exact ⟨hmeets, binding, random, rfl⟩
  | rotated n =>
    simp only [World.step]
    split
    · exact h
    next rotation hrotation =>
    obtain ⟨hmark, binding, hsealed⟩ := h.rotations rotation (List.mem_of_getElem? hrotation)
    refine ⟨fun row hrow => ?_, fun r hr => h.rotations r (List.mem_of_mem_eraseIdx hr)⟩
    obtain ⟨stored, hstored, rfl⟩ := List.mem_map.mp hrow
    by_cases hid : stored.id = rotation.id
    · rw [if_pos hid]
      exact ⟨rotation.value, binding, by simp [hid], hmark, hsealed⟩
    · rw [if_neg hid]
      obtain ⟨v, b, hgiven, hmark', hsealed'⟩ := h.rows stored hstored
      exact ⟨v, b, by simp [Function.update_of_ne hid, hgiven], hmark', hsealed'⟩
  | delete ref =>
    simp only [World.step]
    split
    · exact h
    · exact ⟨fun row hrow => h.rows row (List.mem_filter.mp hrow).1, h.rotations⟩
  | reencryptAll =>
    simp only [World.step]
    split
    · exact ⟨h.rows, h.rotations⟩
    · exact h
  | rewrap iv now =>
    simp only [World.step]
    split
    · next row rest hrunning =>
      split
      · exact ⟨h.rows, h.rotations⟩
      next wrappedDek dekIv hrewrap =>
      refine ⟨fun row' hrow => ?_, h.rotations⟩
      obtain ⟨stored, hstored, rfl⟩ := List.mem_map.mp hrow
      obtain ⟨v, b, hgiven, hmark, hsealed⟩ := h.rows stored hstored
      by_cases hid : stored.id = row.id
      · rw [if_pos hid]
        obtain ⟨hwrapped, hiv⟩ := hmeets row rest hrunning stored hstored hid
        rw [← hwrapped, ← hiv] at hrewrap
        exact ⟨v, .new, hgiven, hmark, hsealed.rewrapped hrewrap⟩
      · rw [if_neg hid]
        exact ⟨v, b, hgiven, hmark, hsealed⟩
    · exact h

theorem inv_after {events : List Event} (h : Inv gcm oldKey newKey w) (hmeets : MeetsAll gcm oldKey newKey w events) :
    Inv gcm oldKey newKey (w.after gcm oldKey newKey events) := by
  induction events generalizing w with
  | nil => exact h
  | cons event rest ih => exact ih (inv_step h hmeets.1) hmeets.2

/-! ## Re-encryption -/

def Event.isWrite : Event → Bool
  | .putSecret .. => true
  | .rotated _ => true
  | .delete _ => true
  | _ => false

variable (gcm newKey) in
/-- Readable under the new master key. -/
def Renewed (w : World) (row : VaultRow) : Prop :=
  ∃ value, w.given row.id = some value ∧ ¬Marked value ∧ Sealed gcm newKey row.envelope value

variable (gcm newKey) in
/-- Every row is still to be re-wrapped as it was read, or is re-wrapped. -/
def Renewing (w : World) : Prop :=
  match w.reencryption with
  | .running left => ∀ row ∈ w.rows, row ∈ left ∨ Renewed gcm newKey w row
  | _ => True

theorem renewing_step {event : Event} (hinv : Inv gcm oldKey newKey w) (h : Renewing gcm newKey w) (hmeets : Meets w event)
    (hread : event.isWrite = false) : Renewing gcm newKey (w.step gcm oldKey newKey event) := by
  cases event with
  | putSecret => cases hread
  | rotated => cases hread
  | delete => cases hread
  | rotate =>
    simp only [World.step]
    split
    · exact h
    · exact h
  | reencryptAll =>
    simp only [World.step]
    split
    · exact fun row hrow => .inl hrow
    · exact h
  | rewrap iv now =>
    simp only [World.step]
    split
    · next row rest hrunning =>
      split
      · trivial
      next wrappedDek dekIv hrewrap =>
      have hleft : ∀ row' ∈ w.rows, row' ∈ row :: rest ∨ Renewed gcm newKey w row' := by
        have := h
        rw [Renewing, hrunning] at this
        exact this
      show ∀ row' ∈ updateRow _ _ _, _
      intro row' hrow
      obtain ⟨stored, hstored, rfl⟩ := List.mem_map.mp hrow
      by_cases hid : stored.id = row.id
      · rw [if_pos hid]
        obtain ⟨v, b, hgiven, hmark, hsealed⟩ := hinv.rows stored hstored
        obtain ⟨hwrapped, hiv⟩ := hmeets row rest hrunning stored hstored hid
        rw [← hwrapped, ← hiv] at hrewrap
        exact .inr ⟨v, hgiven, hmark, hsealed.rewrapped hrewrap⟩
      · rw [if_neg hid]
        rcases hleft stored hstored with hmem | hrenewed
        · rcases List.mem_cons.mp hmem with rfl | hmem
          · exact absurd rfl hid
          · exact .inl hmem
        · exact .inr hrenewed
    · exact h

theorem renewing_after {events : List Event} (hinv : Inv gcm oldKey newKey w) (h : Renewing gcm newKey w)
    (hmeets : MeetsAll gcm oldKey newKey w events) (hread : ∀ event ∈ events, event.isWrite = false) :
    Renewing gcm newKey (w.after gcm oldKey newKey events) := by
  induction events generalizing w with
  | nil => exact h
  | cons event rest ih =>
    refine ih (inv_step hinv hmeets.1) (renewing_step hinv h hmeets.1 (hread event (by simp))) hmeets.2 ?_
    exact fun e he => hread e (by simp [he])

/-! ## No secret becomes unreadable -/

variable (gcm oldKey newKey) in
structure Readable (events : List Event) : Prop where
  /-- Every row opens under the old or the new master key, and to nothing but the value last given. -/
  rows : ∀ row ∈ (World.start.after gcm oldKey newKey events).rows, ∃ value,
    (World.start.after gcm oldKey newKey events).given row.id = some value ∧
      (open_ gcm oldKey row.envelope = some value ∨ open_ gcm newKey row.envelope = some value) ∧
      ∀ binding opened, open_ gcm (Binding.key oldKey newKey binding) row.envelope = some opened → opened = value
  /-- A re-encryption that ran to its end without another write leaves every row to the new master key. -/
  reencrypted : ∀ before between, events = before ++ .reencryptAll :: between →
    (World.start.after gcm oldKey newKey before).reencryption = .idle → (∀ event ∈ between, event.isWrite = false) →
    (World.start.after gcm oldKey newKey events).reencryption = .running [] →
    ∀ row ∈ (World.start.after gcm oldKey newKey events).rows, ∃ value,
      (World.start.after gcm oldKey newKey events).given row.id = some value ∧ open_ gcm newKey row.envelope = some value
  purposes : ∀ binding ref purpose value,
    getSecretForPurpose gcm (Binding.key oldKey newKey binding) (World.start.after gcm oldKey newKey events).rows ref purpose =
      some value →
    ∃ row ∈ (World.start.after gcm oldKey newKey events).rows, parseVaultRef ref = some row.id ∧
      row.scope = purpose.scope ∧ row.label = purpose.label

theorem getSecretForPurpose_row {masterKey : Key} {rows : List VaultRow} {ref : String} {purpose : VaultSecretPurpose}
    (h : getSecretForPurpose gcm masterKey rows ref purpose = some value) :
    ∃ row ∈ rows, parseVaultRef ref = some row.id ∧ row.scope = purpose.scope ∧ row.label = purpose.label := by
  unfold getSecretForPurpose at h
  split at h
  · cases h
  next row hload =>
  split at h
  · cases h
  next hsame =>
  obtain ⟨id, hid, hfind⟩ := Option.bind_eq_some_iff.mp hload
  have hrow : row.id = id := by simpa using List.find?_some hfind
  refine ⟨row, List.mem_of_find?_eq_some hfind, hrow ▸ hid, ?_, ?_⟩
  · by_contra hne
    exact hsame (.inl hne)
  · by_contra hne
    exact hsame (.inr hne)

theorem secrets_stay_readable (gcm : Gcm) (oldKey newKey : Key) (events : List Event)
    (hmeets : MeetsAll gcm oldKey newKey .start events) : Readable gcm oldKey newKey events := by
  have hinv := inv_after inv_start hmeets
  refine ⟨?_, ?_, fun binding ref purpose value => getSecretForPurpose_row⟩
  · intro row hrow
    obtain ⟨value, binding, hgiven, hmark, hsealed⟩ := hinv.rows row hrow
    refine ⟨value, hgiven, ?_, fun _ opened hopen => hsealed.opened hmark hopen⟩
    cases binding with
    | old => exact .inl (hsealed.opens hmark)
    | new => exact .inr (hsealed.opens hmark)
  · intro before between e hidle hread hended row hrow
    subst e
    obtain ⟨hbefore, hread', hmeets'⟩ := (meetsAll_append).mp hmeets
    have hinv' := inv_step (inv_after inv_start hbefore) hread'
    have hrenewing : Renewing gcm newKey ((World.start.after gcm oldKey newKey before).step gcm oldKey newKey .reencryptAll) := by
      simp only [World.step, hidle]
      exact fun row hrow => .inl hrow
    have hlater := renewing_after hinv' hrenewing hmeets' hread
    rw [after_append, after_cons] at hended hrow ⊢
    simp only [Renewing, hended] at hlater
    rcases hlater row hrow with hmem | ⟨value, hgiven, hmark, hsealed⟩
    · cases hmem
    · exact ⟨value, hgiven, hsealed.opens hmark⟩

/-! ## Runs that lose a secret -/

def frame (part rest : Bytes) : Bytes := part.flatMap (fun b => [1, b]) ++ 0 :: rest

def unframe : Bytes → Option (Bytes × Bytes)
  | 0 :: rest => some ([], rest)
  | 1 :: b :: rest => (unframe rest).map fun read => (b :: read.1, read.2)
  | _ => none

theorem unframe_frame (part rest : Bytes) : unframe (frame part rest) = some (part, rest) := by
  induction part with
  | nil => rfl
  | cons b more ih => simpa [frame, unframe] using ih

/-- Names its key and IV in the clear: it opens under them and no others. -/
def plainGcm : Gcm where
  encrypt key iv plaintext := frame key (frame iv plaintext)
  decrypt key iv ciphertext :=
    match unframe ciphertext with
    | none => none
    | some (key', rest) =>
      match unframe rest with
      | none => none
      | some (iv', plaintext) => if (key, iv) = (key', iv') then some plaintext else none
  decrypts key iv plaintext := by simp [unframe_frame]
  refuses key iv key' iv' plaintext h := by simp [unframe_frame, h]

def random (n : UInt8) : Random := ⟨List.replicate 32 n, [n], [n], rfl⟩

def oldMaster : Key := List.replicate 32 10

def newMaster : Key := List.replicate 32 11

/-- One secret, rotated and then re-encrypted. -/
def orderly : List Event :=
  [.putSecret .old "1" .app "token" "first" (random 1), .rotate .old "vault:1" "second" (random 2) 1, .rotated 0, .reencryptAll,
    .rewrap [7] 2]

theorem an_orderly_rotation_stays_readable : Readable plainGcm oldMaster newMaster orderly := by
  have hmark : ∀ value : String, value.toList.head? ≠ some '\ufeff' → ¬Marked value := fun _ h => h
  refine secrets_stay_readable _ _ _ _ ⟨hmark _ (by decide), hmark _ (by decide), trivial, trivial, ?_, trivial⟩
  intro row rest hrunning stored hstored _
  -- The one row read is the one stored.
  have hone : (World.start.after plainGcm oldMaster newMaster (orderly.take 3)).rows.length = 1 := by decide
  obtain ⟨only, honly⟩ := List.length_eq_one_iff.mp hone
  have hread : only :: [] = row :: rest := by
    rw [← honly]
    exact Reencryption.running.inj hrunning
  have hsame : stored ∈ [only] := by
    rw [← honly]
    exact hstored
  rw [List.mem_singleton.mp hsame, (List.cons.inj hread).1]
  exact ⟨rfl, rfl⟩

/-- The rotation commits between the read of `reencryptAll` and its write. -/
def racing : List Event :=
  [.putSecret .old "1" .app "token" "first" (random 1), .reencryptAll, .rotate .old "vault:1" "second" (random 2) 1, .rotated 0,
    .rewrap [7] 2]

def marked : List Event := [.putSecret .old "1" .app "token" "\ufeffkey" (random 1)]

theorem step_rewrap (row : VaultRow) (rest : List VaultRow) {iv : Bytes} {now : Nat} {wrappedDek dekIv : String}
    (hrunning : w.reencryption = .running (row :: rest))
    (hwrap : rewrapDek gcm oldKey newKey row.envelope.wrappedDek row.envelope.dekIv iv = some (wrappedDek, dekIv)) :
    (w.step gcm oldKey newKey (.rewrap iv now)).rows = updateRow w.rows row.id fun stored =>
      { stored with envelope := { stored.envelope with wrappedDek, dekIv }, rotatedAt := some now } := by
  simp only [World.step, hrunning, hwrap]

/-- The row the race leaves: the second value, and the data key of the first. -/
theorem raced_row :
    (World.start.after plainGcm oldMaster newMaster racing).rows =
      [⟨"1", .app, "token", ⟨toBase64 (plainGcm.encrypt (random 2).dek (random 2).valueIv (utf8 "second".toList)),
        toBase64 (random 2).valueIv, toBase64 (plainGcm.encrypt newMaster [7] (random 1).dek), toBase64 [7]⟩, some 2⟩] := by
  have hbefore : World.start.after plainGcm oldMaster newMaster (racing.take 4) =
      ⟨[⟨"1", .app, "token", seal_ plainGcm oldMaster "second" (random 2), some 1⟩], [],
        .running [⟨"1", .app, "token", seal_ plainGcm oldMaster "first" (random 1), none⟩],
        Function.update (Function.update (fun _ => none) "1" (some "first")) "1" (some "second")⟩ := by
    have hparse : parseVaultRef "vault:1" = some "1" := by decide
    simp [World.after, racing, World.step, World.start, loadRow, hparse, updateRow, Binding.key]
  have hwrap : rewrapDek plainGcm oldMaster newMaster (seal_ plainGcm oldMaster "first" (random 1)).wrappedDek
      (seal_ plainGcm oldMaster "first" (random 1)).dekIv [7] =
        some (toBase64 (plainGcm.encrypt newMaster [7] (random 1).dek), toBase64 [7]) := by
    unfold rewrapDek seal_
    rw [unwrap_eq, if_pos rfl]
    rfl
  have hcut : racing = racing.take 4 ++ [.rewrap [7] 2] := rfl
  rw [hcut, after_append, hbefore, after_cons, World.after, List.foldl_nil,
    step_rewrap ⟨"1", .app, "token", seal_ plainGcm oldMaster "first" (random 1), none⟩ [] rfl hwrap]
  simp only [updateRow, List.map_cons, List.map_nil, if_true, seal_]

theorem a_rotation_or_a_byte_order_mark_loses_a_secret :
    ¬Readable plainGcm oldMaster newMaster racing ∧ ¬Readable plainGcm oldMaster newMaster marked := by
  refine ⟨fun h => ?_, fun h => ?_⟩
  · have hlost : (World.start.after plainGcm oldMaster newMaster racing).rows.any (fun row =>
        (open_ plainGcm oldMaster row.envelope).isNone && (open_ plainGcm newMaster row.envelope).isNone) = true := by
      have hdek : (random 1).dek ≠ (random 2).dek := by decide
      rw [raced_row, List.any_cons, open_mixed hdek, open_mixed hdek]
      rfl
    obtain ⟨row, hrow, hnone⟩ := List.any_eq_true.mp hlost
    simp only [Bool.and_eq_true, Option.isNone_iff_eq_none] at hnone
    obtain ⟨value, -, hopens, -⟩ := h.rows row hrow
    rw [hnone.1, hnone.2] at hopens
    rcases hopens with hopens | hopens
    · cases hopens
    · cases hopens
  · obtain ⟨value, hgiven, -, hopened⟩ := h.rows
      ⟨"1", .app, "token", seal_ plainGcm oldMaster "\ufeffkey" (random 1), none⟩ (List.mem_singleton_self _)
    obtain rfl : "\ufeffkey" = value := Option.some.inj hgiven
    have hread : decodeText (utf8 "\ufeffkey".toList) = "key" := by
      unfold decodeText
      rw [decodeUtf8_utf8]
      decide
    have hopen := hopened .old "key" (by rw [Binding.key, open_seal, if_pos rfl, hread])
    exact absurd hopen (by decide)

end Fabrika.Control.Vault
