/-
  Fabrika.Platform.UuidProofs — the order and the form of the ids of one generator.

  An id's bytes are its millisecond, its counter and random bits (`stamped_eq`), so ids stand in
  the order of their milliseconds and, in one millisecond, of their counters. Each call moves
  that pair up (`advance_later`), whatever its millisecond is.
-/

import Mathlib.Data.List.Chain
import Fabrika.Lib.BigEndian
import Fabrika.Platform.Uuid

namespace Fabrika.Platform.Uuid

open Fabrika.Lib

/-! ## The bytes of an id -/

theorem seedOf_range (random : RandomBytes) : 0 ≤ seedOf random ∧ seedOf random ≤ 0xff := by
  have hseed : seedOf random = (random.bytes.getD 7 0 : ℤ) % 2 ^ 8 := Int32.and_mask (k := 8) (by decide) _
  rw [hseed]
  omega

theorem timeByte_eq {millis : ℤ} (hnonneg : 0 ≤ millis) (hlt : millis < 2 ^ 48) {k : ℕ} (hk : k ≤ 1074) :
    timeByte millis k = (millis / 2 ^ k % 256).toNat := by
  have hmask : ∀ x, Int32.and x 0xff = x % 256 := Int32.and_mask (k := 8) (by decide)
  have habs : |millis| < 2 ^ 53 := by
    rw [abs_of_nonneg hnonneg]
    omega
  rw [timeByte, Int32.floorDiv_two_pow habs hk, hmask, stored, Int.emod_emod]

/-- The counter of a generator is twelve bits. -/
def CounterFits (s : State) : Prop := 0 ≤ s.counter ∧ s.counter ≤ COUNTER_MAX

theorem versionByte_eq {counter : ℤ} (hnonneg : 0 ≤ counter) (hle : counter ≤ COUNTER_MAX) :
    stored (Int32.or 0x70 (Int32.ushr counter 8)) = 0x70 + (counter / 256).toNat := by
  have hall : ∀ n : Fin 16, stored (Int32.or 0x70 (n.val : ℤ)) = 0x70 + n.val := by decide
  have hmax : COUNTER_MAX = 4095 := rfl
  have hshift : Int32.ushr counter 8 = counter / 256 := Int32.ushr_eq hnonneg (by omega) (by decide)
  have hsmall := hall ⟨(counter / 256).toNat, by omega⟩
  have hcast : ((counter / 256).toNat : ℤ) = counter / 256 := by omega
  rw [hshift, ← hcast]
  exact hsmall

theorem counterByte_eq (counter : ℤ) : stored (Int32.and counter 0xff) = (counter % 256).toNat := by
  have hmask : Int32.and counter 0xff = counter % 256 := Int32.and_mask (k := 8) (by decide) counter
  rw [hmask, stored, Int.emod_emod]

theorem variantByte_eq (b : Nat) : stored (Int32.or (Int32.and b 0x3f) 0x80) = 0x80 + b % 64 := by
  have hall : ∀ n : Fin 64, stored (Int32.or (n.val : ℤ) 0x80) = 0x80 + n.val := by decide
  have hmask : Int32.and (b : ℤ) 0x3f = (b : ℤ) % 64 := Int32.and_mask (k := 6) (by decide) b
  have hsmall := hall ⟨b % 64, by omega⟩
  have hcast : ((b % 64 : ℕ) : ℤ) = (b : ℤ) % 64 := by omega
  rw [hmask, ← hcast]
  exact hsmall

theorem digits_six (n : ℤ) (hnonneg : 0 ≤ n) :
    BigEndian.digits 256 6 n.toNat = [(n / 2 ^ 40 % 256).toNat, (n / 2 ^ 32 % 256).toNat, (n / 2 ^ 24 % 256).toNat,
      (n / 2 ^ 16 % 256).toNat, (n / 2 ^ 8 % 256).toNat, (n % 256).toNat] := by
  obtain ⟨m, rfl⟩ := Int.eq_ofNat_of_zero_le hnonneg
  simp only [BigEndian.digits, List.nil_append, List.cons_append, List.cons.injEq, and_true, Int.toNat_natCast]
  omega

variable {s : State} {bytes : List Nat}

theorem stamped_eq (hnonneg : 0 ≤ s.lastMillis) (hlt : s.lastMillis < 2 ^ 48) (hcounter : CounterFits s) (random : RandomBytes) :
    stamped s random = BigEndian.digits 256 6 s.lastMillis.toNat ++ [0x70 + (s.counter / 256).toNat, (s.counter % 256).toNat] ++
      (0x80 + random.bytes.getD 8 0 % 64) :: random.bytes.drop 9 := by
  have hlast : stored (Int32.and s.lastMillis 0xff) = (s.lastMillis % 256).toNat := counterByte_eq s.lastMillis
  rw [stamped, timeByte_eq hnonneg hlt (by decide), timeByte_eq hnonneg hlt (by decide), timeByte_eq hnonneg hlt (by decide),
    timeByte_eq hnonneg hlt (by decide), timeByte_eq hnonneg hlt (by decide), hlast, versionByte_eq hcounter.1 hcounter.2,
    counterByte_eq, variantByte_eq, digits_six _ hnonneg]
  rfl

/-- Sixteen bytes, and the first nine of them say nothing random but their last six bits. -/
theorem stamped_bytes (hnonneg : 0 ≤ s.lastMillis) (hlt : s.lastMillis < 2 ^ 48) (hcounter : CounterFits s)
    (random : RandomBytes) : (stamped s random).length = 16 ∧ ∀ b ∈ stamped s random, b < 256 := by
  have hmax : COUNTER_MAX = 4095 := rfl
  obtain ⟨hlow, hhigh⟩ := hcounter
  constructor
  · simp [stamped, random.length_eq]
  · rw [stamped_eq hnonneg hlt ⟨hlow, hhigh⟩, digits_six _ hnonneg]
    intro b hb
    simp only [List.cons_append, List.nil_append, List.mem_cons] at hb
    rcases hb with rfl | rfl | rfl | rfl | rfl | rfl | rfl | rfl | rfl | hb
    any_goals omega
    exact random.lt b (List.mem_of_mem_drop hb)

/-! ## The text of an id -/

/-- The hex digit of a number. -/
def hexChar (n : Nat) : Char := Nat.digitChar n

theorem hexByte_eq {b : Nat} (h : b < 256) : hexByte b = [hexChar (b / 16), hexChar (b % 16)] := by
  have hall : ∀ b : Fin 256, hexByte b.val = [hexChar (b.val / 16), hexChar (b.val % 16)] := by decide +kernel
  exact hall ⟨b, h⟩

theorem hexChar_lt {m n : Nat} (h : m < n) (hn : n < 16) : (hexChar m).toNat < (hexChar n).toNat := by
  have hall : ∀ n < 16, ∀ m < n, (hexChar m).toNat < (hexChar n).toNat := by decide
  exact hall n hn m h

/-- What stands after a byte of an id. -/
def dashAfter (i : Nat) : List Char := if i = 3 ∨ i = 5 ∨ i = 7 ∨ i = 9 then ['-'] else []

/-- The text of bytes from a place on. -/
def textFrom : Nat → List Nat → List Char
  | _, [] => []
  | i, b :: rest => [hexChar (b / 16), hexChar (b % 16)] ++ dashAfter i ++ textFrom (i + 1) rest

theorem flatMap_hexByte (h : ∀ b ∈ bytes, b < 256) :
    bytes.flatMap hexByte = bytes.flatMap fun b => [hexChar (b / 16), hexChar (b % 16)] :=
  List.flatMap_congr fun b hb => hexByte_eq (h b hb)

theorem dashed_eq (hlength : bytes.length = 16) (h : ∀ b ∈ bytes, b < 256) :
    dashed (bytes.flatMap hexByte) = textFrom 0 bytes := by
  rw [flatMap_hexByte h]
  match bytes, hlength with
  | [a, b, c, d, e, f, g, h, i, j, k, l, m, n, o, p], _ => rfl

theorem textFrom_lt {xs ys : List Nat} (i : Nat) (hlength : xs.length = ys.length) (hx : ∀ b ∈ xs, b < 256)
    (hy : ∀ b ∈ ys, b < 256) (h : xs < ys) : (textFrom i xs).map Char.toNat < (textFrom i ys).map Char.toNat := by
  induction xs generalizing ys i with
  | nil =>
    rw [List.length_nil] at hlength
    rw [List.length_eq_zero_iff.mp hlength.symm] at h
    exact absurd h (List.not_lt_nil [])
  | cons x xs ih =>
    cases ys with
    | nil => cases hlength
    | cons y ys =>
      have hx256 := hx x List.mem_cons_self
      have hy256 := hy y List.mem_cons_self
      simp only [textFrom, List.map_append, List.map_cons, List.cons_append, List.nil_append]
      rcases List.cons_lt_cons_iff.mp h with hlt | ⟨rfl, hlt⟩
      · rw [List.cons_lt_cons_iff]
        by_cases hhigh : x / 16 < y / 16
        · exact .inl (hexChar_lt hhigh (by omega))
        · have hequal : x / 16 = y / 16 := by omega
          rw [hequal, List.cons_lt_cons_iff]
          exact .inr ⟨rfl, .inl (hexChar_lt (by omega) (by omega))⟩
      · rw [List.cons_lt_cons_iff, List.cons_lt_cons_iff]
        refine .inr ⟨rfl, .inr ⟨rfl, List.append_left_lt ?_⟩⟩
        exact ih (i + 1) (Nat.succ.inj hlength) (fun b hb => hx b (List.mem_cons_of_mem _ hb))
          (fun b hb => hy b (List.mem_cons_of_mem _ hb)) hlt

theorem hexChar_plain {n : Nat} (h : n < 16) : ('0' ≤ hexChar n ∧ hexChar n ≤ '9') ∨ ('a' ≤ hexChar n ∧ hexChar n ≤ 'f') := by
  have hall : ∀ n < 16, ('0' ≤ hexChar n ∧ hexChar n ≤ '9') ∨ ('a' ≤ hexChar n ∧ hexChar n ≤ 'f') := by decide
  exact hall n h

theorem mem_textFrom {i : Nat} (h : ∀ b ∈ bytes, b < 256) {c : Char} (hc : c ∈ textFrom i bytes) : c.toNat < 0x10000 := by
  have hhex : ∀ n < 16, (hexChar n).toNat < 0x10000 := by decide
  induction bytes generalizing i with
  | nil => cases hc
  | cons b rest ih =>
    have hb := h b List.mem_cons_self
    rw [textFrom, List.append_assoc, List.mem_append, List.mem_append] at hc
    rcases hc with hpair | hdash | hrest
    · rcases List.mem_pair.mp hpair with rfl | rfl
      · exact hhex _ (by omega)
      · exact hhex _ (by omega)
    · unfold dashAfter at hdash
      split at hdash
      · rw [List.mem_singleton.mp hdash]
        decide
      · cases hdash
    · exact ih (fun b hb => h b (List.mem_cons_of_mem _ hb)) hrest

theorem codeUnits_plain {text : List Char} (h : ∀ c ∈ text, c.toNat < 0x10000) :
    codeUnits (String.ofList text) = text.map Char.toNat := by
  rw [codeUnits, String.toList_ofList]
  induction text with
  | nil => rfl
  | cons c rest ih =>
    rw [List.flatMap_cons, if_pos (h c List.mem_cons_self), ih fun d hd => h d (List.mem_cons_of_mem _ hd)]
    rfl

/-! ## The order of ids -/

/-- The id of a state. -/
def idOf (s : State) (random : RandomBytes) : String := String.ofList (dashed ((stamped s random).flatMap hexByte))

/-- A state that an id can be stamped with. -/
structure Stampable (s : State) : Prop where
  nonneg : 0 ≤ s.lastMillis
  lt : s.lastMillis < 2 ^ 48
  counter : CounterFits s

def Later (s s' : State) : Prop := s.lastMillis < s'.lastMillis ∨ (s.lastMillis = s'.lastMillis ∧ s.counter < s'.counter)

theorem Later.trans {s s' s'' : State} (h : Later s s') (h' : Later s' s'') : Later s s'' := by
  unfold Later at *
  omega

section
variable {s' : State} (hs : Stampable s) (hs' : Stampable s') (hlater : Later s s') (random random' : RandomBytes)
include hs hs' hlater

theorem stamped_lt : stamped s random < stamped s' random' := by
  rw [stamped_eq hs.nonneg hs.lt hs.counter, stamped_eq hs'.nonneg hs'.lt hs'.counter, List.append_assoc, List.append_assoc]
  obtain ⟨hlow, hhigh⟩ := hs.counter
  rcases hlater with hlt | ⟨heq, hlt⟩
  · have hnonneg := hs.nonneg
    have hbound := hs'.lt
    apply FixedText.append_lt_append
    · exact BigEndian.digits_lt (by omega) (by omega)
    · rw [BigEndian.length_digits, BigEndian.length_digits]
  · rw [heq]
    apply List.append_left_lt
    rw [List.cons_append, List.cons_append, List.cons_append, List.cons_append, List.cons_lt_cons_iff]
    by_cases hbyte : (s.counter / 256).toNat < (s'.counter / 256).toNat
    · exact .inl (by omega)
    · refine .inr ⟨by omega, ?_⟩
      rw [List.cons_lt_cons_iff]
      exact .inl (by omega)

theorem idOf_lt : codeUnits (idOf s random) < codeUnits (idOf s' random') := by
  obtain ⟨hlength, hbytes⟩ := stamped_bytes hs.nonneg hs.lt hs.counter random
  obtain ⟨hlength', hbytes'⟩ := stamped_bytes hs'.nonneg hs'.lt hs'.counter random'
  rw [idOf, idOf, dashed_eq hlength hbytes, dashed_eq hlength' hbytes', codeUnits_plain fun c hc => mem_textFrom hbytes hc,
    codeUnits_plain fun c hc => mem_textFrom hbytes' hc]
  exact textFrom_lt 0 (hlength.trans hlength'.symm) hbytes hbytes' (stamped_lt hs hs' hlater random random')

end

/-! ## The form of an id -/

def pair (b : Nat) : List Char := [hexChar (b / 16), hexChar (b % 16)]

theorem foldl_pairs (h : ∀ b ∈ bytes, b < 256) (start : Nat) :
    (bytes.flatMap pair).foldl (fun n c => 16 * n + (Text.hexDigit c).getD 0) start =
    bytes.foldl (fun n b => 256 * n + b) start := by
  have hdigit : ∀ n < 16, (Text.hexDigit (hexChar n)).getD 0 = n := by decide
  induction bytes generalizing start with
  | nil => rfl
  | cons b rest ih =>
    have hb := h b List.mem_cons_self
    have hpair : (pair b).foldl (fun n c => 16 * n + (Text.hexDigit c).getD 0) start = 256 * start + b := by
      rw [pair, List.foldl_cons, List.foldl_cons, List.foldl_nil, hdigit _ (by omega), hdigit _ (by omega)]
      omega
    rw [List.flatMap_cons, List.foldl_append, List.foldl_cons, hpair]
    exact ih (fun b hb => h b (List.mem_cons_of_mem _ hb)) _

theorem isHex_pairs (h : ∀ b ∈ bytes, b < 256) : IsHex (bytes.flatMap pair) := by
  intro c hc
  obtain ⟨b, hb, hc⟩ := List.mem_flatMap.mp hc
  have hlt := h b hb
  rcases List.mem_pair.mp hc with rfl | rfl
  · exact hexChar_plain (by omega)
  · exact hexChar_plain (by omega)

theorem isUuidV7_textFrom {time rest : List Nat} {v c w : Nat} (htime : time.length = 6) (hrest : rest.length = 7)
    (htimeBytes : ∀ b ∈ time, b < 256) (hrestBytes : ∀ b ∈ rest, b < 256) (hv : v / 16 = 7) (hc : c < 256)
    (hw : 8 ≤ w / 16 ∧ w / 16 < 12) :
    IsUuidV7 (String.ofList (textFrom 0 (time ++ [v, c] ++ w :: rest))) (BigEndian.value 256 time) := by
  match time, rest, htime, hrest with
  | [t₀, t₁, t₂, t₃, t₄, t₅], [r₀, r₁, r₂, r₃, r₄, r₅, r₆], _, _ =>
    have hvariant : ∀ n < 12, 8 ≤ n → hexChar n ∈ ['8', '9', 'a', 'b'] := by decide
    have hseven : hexChar (v / 16) = '7' := by
      rw [hv]
      rfl
    refine ⟨[t₀, t₁, t₂, t₃].flatMap pair, [t₄, t₅].flatMap pair, hexChar (v % 16) :: pair c, hexChar (w / 16),
      hexChar (w % 16) :: pair r₀, [r₁, r₂, r₃, r₄, r₅, r₆].flatMap pair, ?_, rfl, rfl, rfl, hvariant _ hw.2 hw.1, rfl,
      rfl, ?_, ?_⟩
    · rw [String.toList_ofList, ← hseven]
      rfl
    · have hpair : ∀ b < 256, IsHex (pair b) := by
        intro b hb d hd
        exact isHex_pairs (by simpa using hb) d (List.mem_flatMap.mpr ⟨b, List.mem_singleton_self b, hd⟩)
      have hhigh : IsHex ([t₀, t₁, t₂, t₃].flatMap pair) :=
        isHex_pairs fun b hb => htimeBytes b (List.mem_append_left [t₄, t₅] hb)
      have hlow : IsHex ([t₄, t₅].flatMap pair) :=
        isHex_pairs fun b hb => htimeBytes b (List.mem_append_right [t₀, t₁, t₂, t₃] hb)
      have hnode : IsHex ([r₁, r₂, r₃, r₄, r₅, r₆].flatMap pair) :=
        isHex_pairs fun b hb => hrestBytes b (List.mem_cons_of_mem r₀ hb)
      intro d hd
      simp only [List.mem_append, List.mem_cons] at hd
      rcases hd with (((hd | hd) | rfl | hd) | rfl | hd) | hd
      · exact hhigh d hd
      · exact hlow d hd
      · exact hexChar_plain (Nat.mod_lt _ (by decide))
      · exact hpair c hc d hd
      · exact hexChar_plain (Nat.mod_lt _ (by decide))
      · exact hpair r₀ (hrestBytes r₀ List.mem_cons_self) d hd
      · exact hnode d hd
    · have hfold := foldl_pairs htimeBytes 0
      exact congrArg Nat.cast hfold

theorem isUuidV7_idOf (h : Stampable s) (random : RandomBytes) : IsUuidV7 (idOf s random) s.lastMillis := by
  obtain ⟨hlow, hhigh⟩ := h.counter
  have hnonneg := h.nonneg
  have hlt := h.lt
  have hmax : COUNTER_MAX = 4095 := rfl
  have hlength : (random.bytes.drop 9).length = 7 := by rw [List.length_drop, random.length_eq]
  have hrandom : ∀ b ∈ random.bytes.drop 9, b < 256 := fun b hb => random.lt b (List.mem_of_mem_drop hb)
  have hvalue : (BigEndian.value 256 (BigEndian.digits 256 6 s.lastMillis.toNat) : ℤ) = s.lastMillis := by
    rw [BigEndian.value_digits, Nat.mod_eq_of_lt (by omega)]
    omega
  have hdigits : ∀ b ∈ BigEndian.digits 256 6 s.lastMillis.toNat, b < 256 := BigEndian.mem_digits_lt (by decide)
  obtain ⟨hbytes, hsmall⟩ := stamped_bytes h.nonneg h.lt h.counter random
  have hform := isUuidV7_textFrom (v := 0x70 + (s.counter / 256).toNat) (c := (s.counter % 256).toNat)
    (w := 0x80 + random.bytes.getD 8 0 % 64) (BigEndian.length_digits 6 s.lastMillis.toNat) hlength hdigits hrandom (by omega)
    (by omega) (by omega)
  rw [hvalue, ← stamped_eq h.nonneg h.lt h.counter random] at hform
  rw [idOf, dashed_eq hbytes hsmall]
  exact hform

/-! ## Calls -/

theorem advance_counter (millis : ℤ) {seed : ℤ} (hs : CounterFits s) (hseed : 0 ≤ seed ∧ seed ≤ 0xff) :
    CounterFits (advance s millis seed) := by
  have hmax : COUNTER_MAX = 4095 := rfl
  unfold CounterFits at *
  unfold advance
  split
  · exact ⟨hseed.1, by simp only; omega⟩
  · split
    · exact ⟨by simp only; omega, by simp only; omega⟩
    · exact ⟨hseed.1, by simp only; omega⟩

section
variable (s : State)

theorem advance_later (millis seed : ℤ) : Later s (advance s millis seed) := by
  unfold Later advance
  split
  · exact .inl (by assumption)
  · split
    · exact .inr ⟨rfl, Int.lt_succ _⟩
    · exact .inl (Int.lt_succ _)

theorem le_advance (millis seed : ℤ) : millis ≤ (advance s millis seed).lastMillis ∧
    s.lastMillis ≤ (advance s millis seed).lastMillis := by
  unfold advance
  split
  · exact ⟨le_refl _, by simp only; omega⟩
  · split
    · exact ⟨by simp only; omega, le_refl _⟩
    · exact ⟨by simp only; omega, by simp only; omega⟩

theorem uuidv7_eq (millis : ℤ) (random : RandomBytes) :
    uuidv7 s millis random = (idOf (advance s millis (seedOf random)) random, advance s millis (seedOf random)) := rfl

theorem stateAfter_cons (call : Call) (rest : List Call) :
    stateAfter s (call :: rest) = stateAfter (advance s call.millis (seedOf call.random)) rest := rfl

theorem stateAfter_append (calls more : List Call) : stateAfter s (calls ++ more) = stateAfter (stateAfter s calls) more :=
  List.foldl_append

theorem minted_append (calls more : List Call) :
    minted s (calls ++ more) = minted s calls ++ minted (stateAfter s calls) more := by
  induction calls generalizing s with
  | nil => rfl
  | cons call rest ih =>
    rw [List.cons_append, minted, minted, ih, List.cons_append]
    rfl

theorem length_minted (calls : List Call) : (minted s calls).length = calls.length := by
  induction calls generalizing s with
  | nil => rfl
  | cons call rest ih => rw [minted, List.length_cons, List.length_cons, ih]

theorem le_stateAfter (calls : List Call) : s.lastMillis ≤ (stateAfter s calls).lastMillis := by
  induction calls generalizing s with
  | nil => exact le_refl _
  | cons call rest ih =>
    rw [stateAfter_cons]
    exact (le_advance s call.millis (seedOf call.random)).2.trans (ih _)

end

theorem stateAfter_counter (hs : CounterFits s) (calls : List Call) : CounterFits (stateAfter s calls) := by
  induction calls generalizing s with
  | nil => exact hs
  | cons call rest ih =>
    rw [stateAfter_cons]
    exact ih (advance_counter call.millis hs (seedOf_range call.random))

/-- Every id of a run is of a later state. -/
theorem minted_later (hs : CounterFits s) {calls : List Call} (hbelow : (stateAfter s calls).lastMillis < 2 ^ 48) {id : String}
    (hid : id ∈ minted s calls) : ∃ s' random, Stampable s' ∧ Later s s' ∧ id = idOf s' random := by
  induction calls generalizing s with
  | nil => cases hid
  | cons call rest ih =>
    have hcounter := advance_counter call.millis hs (seedOf_range call.random)
    have hle := le_advance s call.millis (seedOf call.random)
    have hlater := advance_later s call.millis (seedOf call.random)
    have hnonneg := call.nonneg
    rw [stateAfter_cons] at hbelow
    have hafter := le_stateAfter (advance s call.millis (seedOf call.random)) rest
    rw [minted, uuidv7_eq, List.mem_cons] at hid
    rcases hid with rfl | hid
    · exact ⟨_, call.random, ⟨by omega, by omega, hcounter⟩, hlater, rfl⟩
    · obtain ⟨s', random, hstamp, hlater', rfl⟩ := ih hcounter hbelow hid
      exact ⟨s', random, hstamp, hlater.trans hlater', rfl⟩

theorem minted_pairwise (hs : CounterFits s) {calls : List Call} (hbelow : (stateAfter s calls).lastMillis < 2 ^ 48) :
    (minted s calls).Pairwise fun id later => codeUnits id < codeUnits later := by
  induction calls generalizing s with
  | nil => exact List.Pairwise.nil
  | cons call rest ih =>
    have hcounter := advance_counter call.millis hs (seedOf_range call.random)
    have hle := le_advance s call.millis (seedOf call.random)
    have hnonneg := call.nonneg
    rw [stateAfter_cons] at hbelow
    have hafter := le_stateAfter (advance s call.millis (seedOf call.random)) rest
    rw [minted, uuidv7_eq, List.pairwise_cons]
    refine ⟨fun id hid => ?_, ih hcounter hbelow⟩
    obtain ⟨s', random, hstamp, hlater, rfl⟩ := minted_later hcounter hbelow hid
    exact idOf_lt ⟨by omega, by omega, hcounter⟩ hstamp hlater call.random random

/-- The millisecond is the largest given and at most one more for each exhausted counter. -/
theorem millis_bounds (s : State) (most : ℤ) (hmost : most ≤ s.lastMillis) (calls : List Call) :
    calls.foldl (fun most call => max most call.millis) most ≤ (stateAfter s calls).lastMillis ∧
      (stateAfter s calls).lastMillis ≤
        calls.foldl (fun most call => max most call.millis) most + exhausted s calls + (s.lastMillis - most) := by
  induction calls generalizing s most with
  | nil => exact ⟨hmost, by simp [stateAfter, exhausted]⟩
  | cons call rest ih =>
    rw [stateAfter_cons, List.foldl_cons, exhausted, uuidv7_eq]
    have hnext := ih (advance s call.millis (seedOf call.random)) (max most call.millis)
      (by have := le_advance s call.millis (seedOf call.random); omega)
    refine ⟨hnext.1, hnext.2.trans ?_⟩
    have hstep : (advance s call.millis (seedOf call.random)).lastMillis - max most call.millis ≤
        (if call.millis ≤ s.lastMillis ∧ COUNTER_MAX ≤ s.counter then 1 else 0) + (s.lastMillis - most) := by
      unfold advance
      by_cases hlater : call.millis > s.lastMillis
      · rw [if_pos hlater, if_neg (by omega)]
        simp only
        omega
      · rw [if_neg hlater]
        by_cases hroom : s.counter < COUNTER_MAX
        · rw [if_pos hroom, if_neg (by omega)]
          simp only
          omega
        · rw [if_neg hroom, if_pos ⟨by omega, by omega⟩]
          simp only
          omega
    simp only
    omega

/-- The ids of a generator strictly increase, and each is of a millisecond not below the largest
    given and above it only by exhausted counters. -/
theorem uuidv7_increases (calls : List Call) (hbelow : (stateAfter init calls).lastMillis < 2 ^ 48) :
    ((minted init calls).Pairwise fun id later => codeUnits id < codeUnits later) ∧
    ∀ earlier call later, calls = earlier ++ call :: later →
      ∃ id millis, (minted init calls)[earlier.length]? = some id ∧ IsUuidV7 id millis ∧
        largest (earlier ++ [call]) ≤ millis ∧ millis ≤ largest (earlier ++ [call]) + exhausted init (earlier ++ [call]) := by
  have hinit : CounterFits init := ⟨by decide, by decide⟩
  refine ⟨minted_pairwise hinit hbelow, fun earlier call later hcalls => ?_⟩
  subst hcalls
  have hcounter := stateAfter_counter hinit earlier
  have hle := le_advance (stateAfter init earlier) call.millis (seedOf call.random)
  have hnonneg := call.nonneg
  rw [stateAfter_append, stateAfter_cons] at hbelow
  have hafter := le_stateAfter (advance (stateAfter init earlier) call.millis (seedOf call.random)) later
  have hstamp : Stampable (advance (stateAfter init earlier) call.millis (seedOf call.random)) :=
    ⟨by omega, by omega, advance_counter call.millis hcounter (seedOf_range call.random)⟩
  refine ⟨_, _, ?_, isUuidV7_idOf hstamp call.random, ?_⟩
  · rw [minted_append, minted, uuidv7_eq, List.getElem?_append_right (length_minted _ _).le, length_minted, Nat.sub_self]
    rfl
  · have hbounds := millis_bounds init (-1) (le_refl _) (earlier ++ [call])
    rw [stateAfter_append] at hbounds
    refine ⟨hbounds.1, hbounds.2.trans (le_of_eq ?_)⟩
    show largest (earlier ++ [call]) + exhausted init (earlier ++ [call]) + (-1 - -1) = _
    omega

def noBytes : RandomBytes := ⟨List.replicate 16 0, rfl, by decide⟩

/-- Calls of a millisecond that is not later count while the counter has room. -/
theorem stateAfter_within (call : Call) (n : ℕ) (hmillis : call.millis ≤ s.lastMillis) (hroom : s.counter + n ≤ COUNTER_MAX) :
    stateAfter s (List.replicate n call) = ⟨s.lastMillis, s.counter + n⟩ := by
  induction n generalizing s with
  | zero => simp [stateAfter]
  | succ n ih =>
    have hstep : advance s call.millis (seedOf call.random) = ⟨s.lastMillis, s.counter + 1⟩ := by
      rw [advance, if_neg (by omega), if_pos (by omega)]
    rw [List.replicate_succ, stateAfter_cons, hstep, ih (by omega) (by push_cast at hroom ⊢; omega)]
    congr 1
    push_cast
    ring

def aCall : Call := ⟨5, noBytes, by decide, by decide⟩

/-- The counter starts at 0 and holds 4095 more calls of a millisecond; the next one borrows. -/
def fullMillisecond : List Call := aCall :: (List.replicate 4095 aCall ++ [aCall])

theorem fullMillisecond_borrows : stateAfter init fullMillisecond = ⟨6, 0⟩ := by
  have hfirst : advance init aCall.millis (seedOf aCall.random) = ⟨5, 0⟩ := by decide
  rw [fullMillisecond, stateAfter_cons, hfirst, stateAfter_append, stateAfter_within aCall 4095 (le_refl _) (by decide)]
  decide

/-- The ids of a millisecond whose counter runs out still increase. -/
theorem a_millisecond_is_borrowed : (∀ call ∈ fullMillisecond, call.millis = 5) ∧
    (stateAfter init fullMillisecond).lastMillis = 6 ∧
    (minted init fullMillisecond).Pairwise fun id later => codeUnits id < codeUnits later := by
  have hlast : (stateAfter init fullMillisecond).lastMillis = 6 := by rw [fullMillisecond_borrows]
  have hmillis : ∀ call ∈ fullMillisecond, call.millis = 5 := by
    intro call hcall
    have heq : call = aCall := by
      rcases List.mem_cons.mp hcall with rfl | hrest
      · rfl
      · rcases List.mem_append.mp hrest with hmany | hlater
        · exact List.eq_of_mem_replicate hmany
        · exact List.mem_singleton.mp hlater
    rw [heq]
    rfl
  exact ⟨hmillis, hlast, (uuidv7_increases fullMillisecond (by rw [hlast]; decide)).1⟩

end Fabrika.Platform.Uuid
