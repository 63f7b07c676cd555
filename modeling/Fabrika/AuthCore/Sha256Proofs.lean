/-
  Fabrika.AuthCore.Sha256Proofs — sha256.ts is SHA-256 (see `Fabrika.AuthCore.Sha256Numbers` and
  `Fabrika.Lib.Sha2`).

  The padded bytes spell the standard's padded bits (`padded_spec`). Within a block, the schedule
  array holds the standard's words up to the index reached (`load_spec`, `expand_spec`), and the
  eight variables spell the working variables round by round (`round_spec`). So a block takes the
  array that holds a hash to the array that holds the next (`compress_spec`), whatever the
  schedule held before.
-/

import Fabrika.AuthCore.Sha256Numbers

namespace Fabrika.AuthCore.Sha256

open Fabrika.Lib Fabrika.Lib.Int32
open Fabrika.Lib.Sha2 (bytesToBits blockWord toBits)

/-! ## Typed arrays -/

variable {w : BitVec 32} {n : Nat} {x : Int} {schedule : Uint32Array}

variable {index : Nat}

theorem read_of_getElem {array : Uint32Array} (h : array[index]? = some w) : Spells 1 (read array index) w := by
  rw [read, h, Option.elim_some]
  exact .of_toNat w

@[simp] theorem length_write (array : Uint32Array) (index : Nat) (x : Int) : (write array index x).length = array.length :=
  List.length_set

theorem write_self {array : Uint32Array} (h : index < array.length) (hx : Spells n x w) :
    (write array index x)[index]? = some w := by
  rw [write, List.getElem?_set_self h, hx.word]

theorem write_ne (array : Uint32Array) {other : Nat} (h : index ≠ other) (x : Int) :
    (write array index x)[other]? = array[other]? :=
  List.getElem?_set_ne h

/-! ## Rotations -/

theorem rotateRight_spec (hx : Spells n x w) (bits : Nat) (hpos : 0 < bits) (hlt : bits < 32) :
    Spells 1 (rotateRight x bits) (Sha2.rotr bits w) :=
  (hx.ushr hlt).or (hx.shl (by omega))

/-! ## Padding -/

theorem bigEndian_bits (w : BitVec 32) : bytesToBits (bigEndian w) = toBits 32 w.toNat := by
  have hbyte : ∀ n : Nat, toBits 8 (UInt8.ofNat n).toNat = toBits 8 n := by
    intro n
    rw [UInt8.toNat_ofNat']
    exact Sha2.toBits_mod (le_refl 8)
  have hsplit : toBits 32 w.toNat = toBits 8 (w.toNat / 2 ^ 24) ++ (toBits 8 (w.toNat / 2 ^ 16) ++
      (toBits 8 (w.toNat / 2 ^ 8) ++ toBits 8 w.toNat)) := by
    rw [Sha2.toBits_add 8 24, Sha2.toBits_add 8 16, Sha2.toBits_add 8 8]
  rw [hsplit]
  simp only [bytesToBits, bigEndian, List.map_cons, List.map_nil, List.flatMap_cons, List.flatMap_nil, hbyte,
    List.append_nil, pow_zero, Nat.div_one]

/-- The length words are the two halves of the 64-bit length. -/
theorem length_bits {length : Nat} (h : length < 2 ^ 50) :
    bytesToBits (bigEndian (word (floorDiv (mul length 8) 0x100000000)) ++ bigEndian (word (ushr (mul length 8) 0))) =
      toBits 64 (8 * length) := by
  have hsmall : |((length : Int) * 8)| < 2 ^ 53 := by
    rw [abs_of_nonneg (by positivity)]
    norm_num at h ⊢
    omega
  have hmul : mul length 8 = ((8 * length : Nat) : Int) := by
    rw [mul, number_eq hsmall]
    push_cast
    ring
  have hhigh : floorDiv (mul length 8) 0x100000000 = ((8 * length / 2 ^ 32 : Nat) : Int) := by
    rw [hmul]
    have hdiv := floorDiv_two_pow (z := ((8 * length : Nat) : Int)) (k := 32) (by push_cast; rwa [mul_comm] at hsmall) (by decide)
    rw [show (0x100000000 : Int) = 2 ^ 32 by norm_num, hdiv]
    push_cast
    rfl
  have hlow : word (ushr (mul length 8) 0) = BitVec.ofNat 32 (8 * length) := by
    have hspells : Spells (2 ^ 21) (mul length 8) (BitVec.ofNat 32 (8 * length)) := by
      refine ⟨by rw [hmul, word, BitVec.ofInt_natCast], ?_⟩
      rw [hmul, abs_of_nonneg (by positivity)]
      norm_num at h ⊢
      omega
    exact hspells.ushr_zero.word
  rw [Sha2.bytesToBits_append, bigEndian_bits, bigEndian_bits, hhigh, hlow, Sha2.toBits_add 32 32, word, BitVec.ofInt_natCast]
  congr 1
  · rw [BitVec.toNat_ofNat]
    exact Sha2.toBits_mod (le_refl 32)
  · rw [BitVec.toNat_ofNat]
    exact Sha2.toBits_mod (le_refl 32)

theorem setUint32_append (before after : Uint8Array) (a b c d : UInt8) (x : Int) :
    setUint32 (before ++ a :: b :: c :: d :: after) before.length x = some (before ++ (bigEndian (word x) ++ after)) := by
  rw [setUint32, if_pos (by simp)]
  congr 1
  rw [List.take_left', List.drop_append]
  · simp
  · rfl

/-- The zero bytes of the padding. -/
def zeroBytes (length : Nat) : Nat := (length + 9 + 63) / 64 * 64 - 9 - length

theorem zeros_eq (length : Nat) : Sha2.zeros (8 * length) = 7 + 8 * zeroBytes length := by
  unfold Sha2.zeros zeroBytes
  omega

theorem padded_eq {bytes : Uint8Array} (h : bytes.length < 2 ^ 50) :
    padded bytes = some (bytes ++ 0x80 :: (List.replicate (zeroBytes bytes.length) 0 ++
      (bigEndian (word (floorDiv (mul bytes.length 8) 0x100000000)) ++ bigEndian (word (ushr (mul bytes.length 8) 0))))) := by
  have hsize : (mul (ceilDiv (add bytes.length 9) 64) 64).toNat = (bytes.length + 9 + 63) / 64 * 64 := by
    have hsum : |((bytes.length : Int) + 9)| < 2 ^ 53 := by
      rw [abs_of_nonneg (by positivity)]
      norm_num at h ⊢
      omega
    have hceil : ceilDiv (add bytes.length 9) 64 = ((bytes.length + 9 + 63) / 64 : Nat) := by
      have hdiv := ceilDiv_two_pow (k := 6) hsum (by decide)
      rw [add, number_eq hsum, show (64 : Int) = 2 ^ 6 by norm_num, hdiv]
      push_cast
      norm_num
      omega
    have hexact : |(((bytes.length + 9 + 63) / 64 : Nat) : Int) * 64| < 2 ^ 53 := by
      rw [abs_of_nonneg (by positivity)]
      norm_num at h ⊢
      omega
    rw [hceil, mul, number_eq hexact]
    omega
  have hlength : (bytes.length + 9 + 63) / 64 * 64 = bytes.length + (1 + zeroBytes bytes.length + 8) := by
    unfold zeroBytes
    omega
  have hzeros : List.replicate (1 + zeroBytes bytes.length + 8) (0 : UInt8) =
      0 :: (List.replicate (zeroBytes bytes.length) 0 ++ [0, 0, 0, 0, 0, 0, 0, 0]) := by
    rw [List.replicate_add, Nat.add_comm 1, List.replicate_succ]
    rfl
  generalize hz : zeroBytes bytes.length = z at hlength hzeros ⊢
  have hstart : bytes ++ (List.replicate (bytes.length + (1 + z + 8)) (0 : UInt8)).drop bytes.length =
      bytes ++ 0 :: (List.replicate z 0 ++ [0, 0, 0, 0, 0, 0, 0, 0]) := by
    rw [List.drop_replicate, Nat.add_sub_cancel_left, hzeros]
  have hmark : (bytes ++ (0 : UInt8) :: (List.replicate z 0 ++ [0, 0, 0, 0, 0, 0, 0, 0])).set bytes.length 0x80 =
      (bytes ++ 0x80 :: List.replicate z 0) ++ [0, 0, 0, 0, 0, 0, 0, 0] := by
    rw [List.set_append_right _ _ (le_refl _), Nat.sub_self, List.set_cons_zero]
    simp
  have hhigh :=
    setUint32_append (bytes ++ 0x80 :: List.replicate z 0) [0, 0, 0, 0] 0 0 0 0 (floorDiv (mul bytes.length 8) 0x100000000)
  have hlow :=
    setUint32_append ((bytes ++ 0x80 :: List.replicate z 0) ++ bigEndian (word (floorDiv (mul bytes.length 8) 0x100000000)))
    [] 0 0 0 0 (ushr (mul bytes.length 8) 0)
  have height : ((bytes ++ 0x80 :: List.replicate z 0) ++ ([0, 0, 0, 0, 0, 0, 0, 0] : List UInt8)).length - 8 =
      (bytes ++ 0x80 :: List.replicate z (0 : UInt8)).length := by
    rw [List.length_append]
    exact Nat.add_sub_cancel _ _
  have hfour : ∀ front : List UInt8, (front ++ [0, 0, 0, 0]).length - 4 = front.length := by
    intro front
    rw [List.length_append]
    exact Nat.add_sub_cancel _ _
  have hfits : bytes.length ≤ bytes.length + (1 + z + 8) := Nat.le_add_right _ _
  simp only [padded, hsize, hlength, List.length_replicate, if_pos hfits, hstart, hmark, height, hhigh, Option.bind_eq_bind,
    Option.bind_some]
  rw [← List.append_assoc, hfour, hlow]
  simp

/-- The padded bytes spell the padded bits. -/
theorem padded_spec {bytes : Uint8Array} (h : bytes.length < 2 ^ 50) :
    ∃ view, padded bytes = some view ∧ bytesToBits view = Sha2.pad (bytesToBits bytes) ∧ view.length % 64 = 0 := by
  have hzeros : ∀ n, bytesToBits (List.replicate n 0) = List.replicate (8 * n) false := by
    intro n
    induction n with
    | zero => rfl
    | succ n ih =>
      rw [List.replicate_succ, ← List.singleton_append, Sha2.bytesToBits_append, ih, Nat.mul_succ, Nat.add_comm,
        List.replicate_add]
      rfl
  refine ⟨_, padded_eq h, ?_, ?_⟩
  · rw [Sha2.bytesToBits_append, ← List.singleton_append, Sha2.bytesToBits_append, Sha2.bytesToBits_append, hzeros, length_bits h,
      Sha2.pad, Sha2.length_bytesToBits, zeros_eq, List.replicate_add, List.append_assoc]
    rfl
  · simp only [List.length_append, List.length_cons, List.length_replicate, bigEndian, List.length_map,
      List.length_nil, zeroBytes]
    omega

/-! ## The schedule -/

section Block

variable {view : Uint8Array} {i : Nat} (hblock : 64 * i + 64 ≤ view.length)

include hblock

variable {t : Nat} {v : Variables}

/-- A word of the view is the standard's word of the block. -/
theorem getUint32_spec (ht : t < 16) :
    ∃ x, getUint32 view (i * 64 + t * 4) = some x ∧ Spells 1 x (blockWord (bytesToBits view) i t) := by
  have hoffset : 512 * i + 32 * t = 8 * (i * 64 + t * 4) := by omega
  have hroom : 4 ≤ (view.drop (i * 64 + t * 4)).length := by
    rw [List.length_drop]
    omega
  rw [getUint32, blockWord, hoffset, Sha2.drop_bytesToBits]
  match hview : view.drop (i * 64 + t * 4), hroom with
  | a :: b :: c :: d :: rest, _ =>
    refine ⟨_, rfl, ?_⟩
    rw [Sha2.value_four]
    have hlt : a.toNat * 2 ^ 24 + b.toNat * 2 ^ 16 + c.toNat * 2 ^ 8 + d.toNat < 2 ^ 32 := by
      have ha := a.toNat_lt
      have hb := b.toNat_lt
      have hc := c.toNat_lt
      have hd := d.toNat_lt
      omega
    have hspells := Spells.of_toNat (BitVec.ofNat 32 (a.toNat * 2 ^ 24 + b.toNat * 2 ^ 16 + c.toNat * 2 ^ 8 + d.toNat))
    rwa [BitVec.toNat_ofNat, Nat.mod_eq_of_lt hlt] at hspells

/-- The array holds the schedule of block `i` below `n`. -/
def Holds (view : Uint8Array) (i n : Nat) (schedule : Uint32Array) : Prop :=
  schedule.length = 64 ∧ ∀ t < n, schedule[t]? = some (Sha2.schedule (blockWord (bytesToBits view) i) t)

omit hblock in
theorem Holds.read (h : Holds view i n schedule) (ht : t < n) :
    Spells 1 (Sha256.read schedule t) (Sha2.schedule (blockWord (bytesToBits view) i) t) :=
  read_of_getElem (h.2 t ht)

omit hblock in
/-- Writing the next word of the schedule. -/
theorem Holds.write {m : Nat} (h : Holds view i n schedule) (hn : n < 64)
    (hx : Spells m x (Sha2.schedule (blockWord (bytesToBits view) i) n)) :
    Holds view i (n + 1) (Sha256.write schedule n x) := by
  obtain ⟨hlength, hwords⟩ := h
  refine ⟨by rw [length_write, hlength], ?_⟩
  intro t ht
  by_cases heq : n = t
  · subst heq
    exact write_self (by omega) hx
  · rw [write_ne schedule heq]
    exact hwords t (by omega)

theorem load_spec (h : schedule.length = 64) :
    ∃ loaded, load view (i * 64) schedule = some loaded ∧ Holds view i 16 loaded := by
  have hloop : ∀ n ≤ 16, ∃ loaded, (List.range n).foldlM
      (fun schedule index => (getUint32 view (i * 64 + index * 4)).map (Sha256.write schedule index)) schedule = some loaded ∧
      Holds view i n loaded := by
    intro n hn
    induction n with
    | zero => exact ⟨schedule, rfl, h, by simp⟩
    | succ n ih =>
      obtain ⟨loaded, hloaded, hholds⟩ := ih (by omega)
      obtain ⟨x, hx, hspells⟩ := getUint32_spec hblock (t := n) (by omega)
      rw [← @Sha2.schedule_lt (blockWord (bytesToBits view) i) n (by omega)] at hspells
      refine ⟨Sha256.write loaded n x, ?_, hholds.write (by omega) hspells⟩
      rw [List.range_succ, List.foldlM_append, hloaded]
      simp [hx]
  exact hloop 16 (le_refl 16)

omit hblock in
theorem extend_spec (h : Holds view i n schedule) (hlow : 16 ≤ n) (hn : n < 64) : Holds view i (n + 1) (extend schedule n) := by
  have hearly := h.read (t := n - 15) (by omega)
  have hlate := h.read (t := n - 2) (by omega)
  have hsigma0 := ((rotateRight_spec hearly 7 (by decide) (by decide)).xor
    (rotateRight_spec hearly 18 (by decide) (by decide))).xor (hearly.ushr (k := 3) (by decide))
  have hsigma1 := ((rotateRight_spec hlate 17 (by decide) (by decide)).xor
    (rotateRight_spec hlate 19 (by decide) (by decide))).xor (hlate.ushr (k := 10) (by decide))
  have hsum := (((h.read (t := n - 16) (by omega)).add hsigma0 (by decide)).add (h.read (t := n - 7) (by omega)) (by decide)).add
    hsigma1 (by decide)
  apply h.write hn (x := _) (m := _)
  rw [Sha2.schedule_ge hlow]
  convert hsum using 1
  rw [Sha2.smallSigma0, Sha2.smallSigma1]
  ac_rfl

omit hblock in
theorem expand_spec (h : Holds view i 16 schedule) : Holds view i 64 ((List.range' 16 48).foldl extend schedule) := by
  have hloop : ∀ n ≤ 48, Holds view i (16 + n) ((List.range' 16 n).foldl extend schedule) := by
    intro n hn
    induction n with
    | zero => exact h
    | succ n ih =>
      rw [List.range'_concat, List.foldl_append, Nat.one_mul]
      show Holds view i (16 + n + 1) _
      exact extend_spec (ih (by omega)) (by omega) (by omega)
  exact hloop 48 (le_refl 48)

/-! ## The rounds -/

/-- The variables spell the working variables. -/
structure Agree (v : Variables) (w : Sha2.Working) : Prop where
  a : Spells 1 v.a w.a
  b : Spells 1 v.b w.b
  c : Spells 1 v.c w.c
  d : Spells 1 v.d w.d
  e : Spells 1 v.e w.e
  f : Spells 1 v.f w.f
  g : Spells 1 v.g w.g
  h : Spells 1 v.h w.h

omit hblock in
theorem roundConstants_spec (ht : t < 64) : roundConstants[t]? = some (Sha2.roundConstant t) := by
  have hall : ∀ t < 64, roundConstants[t]? = some (Sha2.roundConstant t) := by decide +kernel
  exact hall t ht

omit hblock in
theorem round_spec (hschedule : Holds view i 64 schedule) {w : Sha2.Working} (h : Agree v w) (ht : t < 64) :
    Agree (round schedule v t) (Sha2.round w (Sha2.roundConstant t)
      (Sha2.schedule (blockWord (bytesToBits view) i) t)) := by
  have hsum1 : Spells 1 _ (Sha2.bigSigma1 w.e) := ((rotateRight_spec h.e 6 (by decide) (by decide)).xor
    (rotateRight_spec h.e 11 (by decide) (by decide))).xor (rotateRight_spec h.e 25 (by decide) (by decide))
  have hchoice : Spells 1 _ (Sha2.ch w.e w.f w.g) := (h.e.and h.f).xor (h.e.not.and h.g)
  have hsum0 : Spells 1 _ (Sha2.bigSigma0 w.a) := ((rotateRight_spec h.a 2 (by decide) (by decide)).xor
    (rotateRight_spec h.a 13 (by decide) (by decide))).xor (rotateRight_spec h.a 22 (by decide) (by decide))
  have hmajority : Spells 1 _ (Sha2.maj w.a w.b w.c) := ((h.a.and h.b).xor (h.a.and h.c)).xor (h.b.and h.c)
  have hconstant := read_of_getElem (roundConstants_spec ht)
  have hfirst :=
    ((((h.h.add hsum1 (by decide)).add hchoice (by decide)).add hconstant (by decide)).add (hschedule.read ht)
      (by decide)).ushr_zero
  have hsecond := (hsum0.add hmajority (by decide)).ushr_zero
  exact ⟨(hfirst.add hsecond (by decide)).ushr_zero, h.a, h.b, h.c, (h.d.add hfirst (by decide)).ushr_zero, h.e, h.f, h.g⟩

omit hblock in
theorem rounds_spec (hschedule : Holds view i 64 schedule) {w : Sha2.Working} (h : Agree v w) :
    Agree ((List.range 64).foldl (round schedule) v) ((List.range 64).foldl
      (fun w t => Sha2.round w (Sha2.roundConstant t) (Sha2.schedule (blockWord (bytesToBits view) i) t)) w) := by
  have hloop : ∀ n ≤ 64, Agree ((List.range n).foldl (round schedule) v) ((List.range n).foldl
      (fun w t => Sha2.round w (Sha2.roundConstant t) (Sha2.schedule (blockWord (bytesToBits view) i) t)) w) := by
    intro n hn
    induction n with
    | zero => exact h
    | succ n ih =>
      rw [List.range_succ, List.foldl_append, List.foldl_append]
      exact round_spec hschedule (ih (by omega)) (by omega)
  exact hloop 64 (le_refl 64)

/-! ## Blocks -/

omit hblock in
/-- Adding the variables to the hash, word by word. -/
theorem add_spec {w : Sha2.Working} (h : Agree v w) (hash : Sha2.Working) :
    [v.a, v.b, v.c, v.d, v.e, v.f, v.g, v.h].zipIdx.foldl (fun hash (value, index) =>
      Sha256.write hash index (add (read hash index) value))
      hash.words = (hash.add w).words := by
  have hword : ∀ {x : Int} {u : BitVec 32} (u' : BitVec 32), Spells 1 x u → word (add (u'.toNat : Int) x) = u' + u := fun u' hx =>
    ((Spells.of_toNat u').add hx (by decide)).word
  simp [Sha2.Working.words, Sha2.Working.add, Sha256.write, Sha256.read, hword hash.a h.a, hword hash.b h.b, hword hash.c h.c,
    hword hash.d h.d, hword hash.e h.e, hword hash.f h.f, hword hash.g h.g, hword hash.h h.h]

theorem compress_spec (hash : Sha2.Working) (h : schedule.length = 64) :
    ∃ next, compress view (hash.words, schedule) (i * 64) =
      some ((Sha2.compress hash (blockWord (bytesToBits view) i)).words, next) ∧ next.length = 64 := by
  obtain ⟨loaded, hloaded, hholds⟩ := load_spec hblock h
  have hschedule := expand_spec hholds
  have hstart : Agree ⟨read hash.words 0, read hash.words 1, read hash.words 2, read hash.words 3, read hash.words 4,
      read hash.words 5, read hash.words 6, read hash.words 7⟩ hash := by
    constructor
    all_goals
      dsimp only
      exact read_of_getElem rfl
  refine ⟨_, ?_, hschedule.1⟩
  simp only [compress, hloaded, Option.bind_eq_bind, Option.bind_some, Option.pure_def]
  rw [add_spec (rounds_spec hschedule hstart), Sha2.compress]

end Block

/-! ## The digest -/

theorem initialHash_spec : initialHash = Sha2.initialHash.words := by decide +kernel

theorem blocks_spec {view : Uint8Array} (hn : 64 * n ≤ view.length) (h : schedule.length = 64) :
    ∃ next, (List.range' 0 n 64).foldlM (compress view) (initialHash, schedule) =
      some (((List.range n).foldl (fun hash i => Sha2.compress hash (blockWord (bytesToBits view) i))
        Sha2.initialHash).words, next) ∧ next.length = 64 := by
  induction n with
  | zero => exact ⟨schedule, by rw [initialHash_spec]; rfl, h⟩
  | succ n ih =>
    obtain ⟨mid, hmid, hlength⟩ := ih (by omega)
    have hroom : 64 * n + 64 ≤ view.length := by omega
    obtain ⟨next, hnext, hlength'⟩ := compress_spec hroom
      ((List.range n).foldl (fun hash i => Sha2.compress hash (blockWord (bytesToBits view) i))
        Sha2.initialHash) hlength
    refine ⟨next, ?_, hlength'⟩
    rw [List.range'_concat, List.foldlM_append, hmid, List.range_succ, List.foldl_append, Nat.zero_add, Nat.mul_comm]
    simpa using hnext

theorem hexDigits_succ (width n : Nat) : hexDigits (width + 1) n = hexDigits width (n / 16) ++ [(n % 16).digitChar] := by
  rw [hexDigits, List.range_succ, List.map_append, hexDigits]
  congr 1
  · apply List.map_congr_left
    intro i hi
    have hlt : i < width := List.mem_range.mp hi
    have hpow : width + 1 - 1 - i = width - 1 - i + 1 := by omega
    rw [hpow, pow_succ, Nat.mul_comm, Nat.div_div_eq_div_mul]
  · simp

/-- `padStart` fills the digits `toString(16)` leaves out. -/
theorem leftpad_toDigits {width : Nat} (hwidth : 0 < width) (hn : n < 16 ^ width) :
    (Nat.toDigits 16 n).leftpad width '0' = hexDigits width n := by
  induction width generalizing n with
  | zero => cases hwidth
  | succ width ih =>
    rw [hexDigits_succ, Nat.toDigits_eq_if (by decide)]
    by_cases hsmall : n < 16
    · have hzero : hexDigits width 0 = List.replicate width '0' := by
        rw [hexDigits, List.eq_replicate_iff]
        simp
      rw [if_pos hsmall, Nat.div_eq_of_lt hsmall, Nat.mod_eq_of_lt hsmall, hzero]
      simp [List.leftpad]
    · rw [if_neg hsmall]
      have hpos : 0 < width := by
        rcases Nat.eq_zero_or_pos width with rfl | hpos
        · omega
        · exact hpos
      have hdiv : n / 16 < 16 ^ width := by
        rw [pow_succ] at hn
        exact Nat.div_lt_of_lt_mul (by rwa [Nat.mul_comm] at hn)
      rw [← ih hpos hdiv, List.leftpad, List.leftpad, List.length_append, List.append_assoc]
      congr 2
      simp

/-- The code's digest is the standard's of the text's UTF-8 bytes. -/
theorem sha256Hex_eq (text : Units) (h : (textEncoderEncode text).length < 2 ^ 50) :
    sha256Hex text = some (hexDigest (Sha2.sha256 (bytesToBits (textEncoderEncode text)))) := by
  obtain ⟨view, hview, hbits, hwhole⟩ := padded_spec h
  have hcount : (view.length + 63) / 64 = view.length / 64 := by omega
  have hroom : 64 * (view.length / 64) ≤ view.length := by omega
  obtain ⟨next, hnext, -⟩ := blocks_spec hroom (@List.length_replicate (BitVec 32) 64 0)
  have hblocks : (Sha2.pad (bytesToBits (textEncoderEncode text))).length / 512 = view.length / 64 := by
    rw [← hbits, Sha2.length_bytesToBits]
    omega
  have hhex : hexText = fun w => hexDigits 8 w.toNat := funext fun w => leftpad_toDigits (by decide) w.isLt
  simp only [sha256Hex, hview, Option.bind_eq_bind, Option.bind_some, hcount, hnext, Option.pure_def]
  rw [hexDigest, Sha2.sha256, hblocks, hbits, hhex]

theorem sha256Hex_abc : sha256Hex [0x61, 0x62, 0x63] = some (hexDigest (Sha2.sha256 (bytesToBits [0x61, 0x62, 0x63]))) :=
  sha256Hex_eq [0x61, 0x62, 0x63] (by decide)

end Fabrika.AuthCore.Sha256
