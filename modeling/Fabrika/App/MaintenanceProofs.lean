/-
  Fabrika.App.MaintenanceProofs — what the maintenance barrier promises over every interleaving
  (see `Fabrika.App.Maintenance`).

  `Moves` says once what a step can do. A put is safe (`Safe`) when the state its version names is
  followed by the state it stores, so whatever R2 holds when the put gets there, history stays in
  order. A transition judged against memory sends a safe put only if memory is not behind what the
  instance last read of R2; a put that failed after a conflict leaves it behind.
-/

import Fabrika.App.Maintenance
import Fabrika.Lib.Run
import Mathlib.Data.List.Pairwise

namespace Fabrika.App.Maintenance

open Fabrika.Lib Fabrika.AuthCore.OpsState

variable {V : Type} {etag : Nat → OpsPublishedState → V}

/-! ## One function at a time -/

variable {frozen : Bool} {a c : OpsPublishedState} {acked : List OpsPublishedState}

variable {b b' : Barrier V} {i i' : Instance V} {stage : Stage V} {s : System V}

theorem takeUp_answer {request : OpsPublishedState} {result : TransitionResult} (h : b.takeUp request frozen = .answer result) :
    result = .stale b.stored ∨ result = .frozen := by
  unfold Barrier.takeUp at h
  split at h
  · cases h
    exact .inl rfl
  · split at h
    · cases h
      exact .inr rfl
    · dsimp only at h
      split at h <;> cases h

theorem takeUp_publish {request : OpsPublishedState} (h : b.takeUp request frozen = .publish b') :
    opsTransitionRefused b.current request = false ∧
      b' = if rank request.mode > rank b.mode then { b with mode := request.mode, generation := some request.generation }
      else b := by
  unfold Barrier.takeUp at h
  split at h
  · cases h
  · rename_i hpass
    split at h
    · cases h
    · dsimp only at h
      split at h
      · cases h
        exact ⟨by simpa using hpass, rfl⟩
      · cases h

theorem isPublished_iff : b.isPublished = true ↔ ∃ state, b.stored = some state ∧ b.current = some state := by
  unfold Barrier.isPublished Barrier.current
  cases hstored : b.stored with
  | none => simp
  | some state =>
    obtain ⟨generation, mode⟩ := state
    cases hgen : b.generation with
    | none => simp
    | some g =>
      simp only [Option.any_some, Option.some.injEq, decide_eq_true_eq, Option.map_some]
      constructor
      · intro ⟨hg, hm⟩
        exact ⟨_, rfl, by rw [hg, hm]⟩
      · intro ⟨state, hstate, hcurrent⟩
        rw [← hstate] at hcurrent
        exact ⟨(congrArg OpsPublishedState.generation hcurrent).symm, (congrArg OpsPublishedState.mode hcurrent).symm⟩

theorem takeUp_drain {request : OpsPublishedState} (h : b.takeUp request frozen = .drain) :
    b.stored = some request ∧ b.current = some request := by
  unfold Barrier.takeUp at h
  split at h
  · cases h
  · rename_i hpass
    split at h
    · cases h
    · dsimp only at h
      split at h
      · cases h
      · rename_i hretry
        rw [not_or, Bool.not_eq_false, Bool.not_eq_false] at hretry
        obtain ⟨state, hstored, hcurrent⟩ := (isPublished_iff).mp hretry.2
        have hsame : state = request := by
          rw [hcurrent] at hpass hretry
          have hfollows : Follows state request := refused_eq_false_iff.mp (by simpa using hpass)
          exact hfollows.eq_of_generation_eq (by simpa using hretry.1)
        exact ⟨hsame ▸ hstored, hsame ▸ hcurrent⟩

theorem restrictedWrite_some {record : FrozenRecord} (h : b.restrictedWrite = some (b', record)) :
    ∃ generation, b.mode ≠ .open ∧ b.generation = some generation ∧ b' = { b with frozenSince := some generation } ∧
      record = ⟨generation, generation⟩ := by
  unfold Barrier.restrictedWrite at h
  split at h
  · cases h
  · rename_i hmode
    split at h
    · cases h
    · rename_i generation hgen
      split at h
      · cases h
      · cases h
        exact ⟨generation, hmode, hgen, rfl, rfl⟩

theorem restrictedWrite_same {record : FrozenRecord} (h : b.restrictedWrite = some (b', record)) :
    b'.stored = b.stored ∧ b'.version = b.version ∧ b'.current = b.current := by
  obtain ⟨generation, _, _, rfl, _⟩ := restrictedWrite_some h
  exact ⟨rfl, rfl, rfl⟩

/-- Bookkeeping of invocations: memory's state and the turn are left alone. -/
inductive Aside : Instance V → Instance V → Prop
  | captured (i : Instance V) : Aside i { i with captured := i.captured ++ [i.barrier.event] }
  | admitted (i : Instance V) (event : BarrierEvent) (kind : InvocationKind) : event ∈ i.captured →
      admitted i.barrier.mode kind = true → i.barrier.generation = event.generation →
      Aside i { i with barrier := { i.barrier with units := i.barrier.units ++ [⟨i.barrier.fresh, kind⟩]
                                                   stops := i.barrier.stops ++ [⟨i.barrier.fresh, kind, false⟩]
                                                   fresh := i.barrier.fresh + 1 }
                       admissions := i.admissions ++ [⟨i.barrier.fresh, kind, false⟩] }
  | tracked (i : Instance V) (admission : Admission) : admission ∈ i.admissions →
      Aside i { i with barrier := (i.barrier.track admission.kind).1, tracked := i.tracked ++
        [(i.barrier.track admission.kind).2] }
  | settled (i : Instance V) (unit : BarrierUnit) : unit ∈ i.tracked →
      Aside i { i with barrier := i.barrier.leave unit.id, tracked := i.tracked.filter fun other => decide (other ≠ unit) }
  | released (i : Instance V) (admission : Admission) : admission ∈ i.admissions → admission.released = false →
      Aside i { i with barrier := i.barrier.release admission.id
                       admissions := i.admissions.map fun other =>
                       if other.id = admission.id then { other with released := true } else other }

/-- Bookkeeping leaves memory's state and the turn alone. -/
structure SameState (i i' : Instance V) : Prop where
  mode : i'.barrier.mode = i.barrier.mode
  generation : i'.barrier.generation = i.barrier.generation
  stored : i'.barrier.stored = i.barrier.stored
  version : i'.barrier.version = i.barrier.version
  frozenSince : i'.barrier.frozenSince = i.barrier.frozenSince
  turn : i'.turn = i.turn

theorem Aside.same (h : Aside i i') : SameState i i' := by
  cases h with
  | captured => exact ⟨rfl, rfl, rfl, rfl, rfl, rfl⟩
  | admitted event kind _ _ _ => exact ⟨rfl, rfl, rfl, rfl, rfl, rfl⟩
  | tracked admission _ => exact ⟨rfl, rfl, rfl, rfl, rfl, rfl⟩
  | settled unit _ => exact ⟨rfl, rfl, rfl, rfl, rfl, rfl⟩
  | released admission _ _ => exact ⟨rfl, rfl, rfl, rfl, rfl, rfl⟩

theorem SameState.current (h : SameState i i') : i'.barrier.current = i.barrier.current := by
  unfold Barrier.current
  rw [h.generation, h.mode]

/-! ## Safe puts keep R2 in order -/

variable (etag) in
/-- An etag names one content. -/
def Names : Prop := ∀ n c n' c', etag n c = etag n' c' → c = c'

variable (etag) in
def Safe (request : OpsPublishedState) (version : Option V) : Prop :=
  ∀ v, version = some v → ∃ n c, v = etag n c ∧ Follows c request

variable (etag) in
/-- What the instance knows of R2 is something R2 held, with its version. -/
def Seen (history : List OpsPublishedState) (stored : Option OpsPublishedState) (version : Option V) : Prop :=
  (stored = none ∧ version = none) ∨ ∃ c n, stored = some c ∧ version = some (etag n c) ∧ c ∈ history

variable {history history' : List OpsPublishedState} {request : OpsPublishedState} {version : Option V}

theorem Seen.mono {stored : Option OpsPublishedState} (h : Seen etag history stored version) (hsub : history ⊆ history') :
    Seen etag history' stored version := by
  rcases h with h | ⟨c, n, hs, hv, hmem⟩
  · exact .inl h
  · exact .inr ⟨c, n, hs, hv, hsub hmem⟩

theorem Seen.safe {stored : Option OpsPublishedState} (h : Seen etag history stored version)
    (hpass : opsTransitionRefused stored request = false) : Safe etag request version := by
  intro v hv
  rcases h with ⟨_, hnone⟩ | ⟨c, n, rfl, hversion, _⟩
  · rw [hnone] at hv
    cases hv
  · rw [hversion] at hv
    cases hv
    exact ⟨n, c, rfl, refused_eq_false_iff.mp hpass⟩

theorem seen_holds : Seen etag history ((holds etag history).map fun found => found.state)
    ((holds etag history).map fun found => found.version) := by
  unfold holds
  cases hlast : history.getLast? with
  | none => exact .inl ⟨rfl, rfl⟩
  | some state => exact .inr ⟨state, history.length, rfl, rfl, List.mem_of_getLast? hlast⟩

/-- The last state R2 holds follows every one before it. -/
theorem follows_last (hord : history.Pairwise Follows) (hlast : history.getLast? = some c) (hmem : a ∈ history) :
    Follows a c := by
  obtain ⟨front, rfl⟩ := List.getLast?_eq_some_iff.mp hlast
  rcases List.mem_append.mp hmem with hfront | hself
  · exact (List.pairwise_append.mp hord).2.2 a hfront c (List.mem_singleton_self c)
  · rw [List.mem_singleton.mp hself]
    exact Follows.refl c

/-- Of two states R2 has held, one follows the other. -/
theorem held_comparable (hord : history.Pairwise Follows) (ha : a ∈ history) (hc : c ∈ history) :
    Follows a c ∨ Follows c a := by
  have hsym : Std.Symm fun x y => Follows x y ∨ Follows y x := ⟨fun _ _ h => h.symm⟩
  have heither : history.Pairwise fun x y => Follows x y ∨ Follows y x := hord.imp fun h => .inl h
  exact heither.forall_of_forall (fun x _ => .inl (Follows.refl x)) ha hc

/-! ## R2 and the acknowledgements stay in order -/

/-- The states acknowledged, oldest first. -/
def acknowledged (results : List (OpsPublishedState × TransitionResult)) : List OpsPublishedState :=
  results.filterMap fun answered => match answered.2 with
    | .acknowledged ack => some ⟨ack.generation, ack.mode⟩
    | _ => none

variable (etag) in
def TurnOk (history : List OpsPublishedState) (b : Barrier V) : Stage V → Prop
  | .putting request _ => opsTransitionRefused b.current request = false ∧ Safe etag request b.version
  | .answering request _ version =>
    opsTransitionRefused b.current request = false ∧ ∀ v, version = some v → request ∈ history ∧ ∃ n, v = etag n request
  | .reading request _ => opsTransitionRefused b.current request = false
  | .found request _ found =>
    opsTransitionRefused b.current request = false ∧
      Seen etag history (found.map fun found => found.state) (found.map fun found => found.version)
  | .freezing request _ _ => b.current = some request ∧ request ∈ history
  | .draining request mode => b.current = some request ∧ request ∈ history ∧ mode = request.mode
  | _ => True

variable (etag) in
structure AliveOk (history acked : List OpsPublishedState) (i : Instance V) : Prop where
  seen : Seen etag history i.barrier.stored i.barrier.version
  acked : ∀ a ∈ acked, ∃ c, i.barrier.current = some c ∧ Follows a c
  turn : ∀ stage, i.turn = some stage → TurnOk etag history i.barrier stage

variable (etag) in
def LifeOk (history acked : List OpsPublishedState) : Life V → Prop
  | .absent => True
  | .loading found =>
    Seen etag history (found.map fun found => found.state) (found.map fun found => found.version) ∧
      ∀ a ∈ acked, ∃ c, found.map (fun found => found.state) = some c ∧ Follows a c
  | .alive i => AliveOk etag history acked i

variable (etag) in
structure Ordered (s : System V) : Prop where
  history : s.history.Pairwise Follows
  ackedHeld : ∀ a ∈ acknowledged s.results, a ∈ s.history
  ackedInOrder : (acknowledged s.results).Pairwise Follows
  late : ∀ request version, Put.state request version ∈ s.late → Safe etag request version
  life : LifeOk etag s.history (acknowledged s.results) s.life

theorem TurnOk.mono (h : TurnOk etag history b stage) (hsub : history ⊆ history') : TurnOk etag history' b stage := by
  cases stage with
  | putting request attempt => exact h
  | answering request attempt version => exact ⟨h.1, fun v hv => ⟨hsub (h.2 v hv).1, (h.2 v hv).2⟩⟩
  | reading request attempt => exact h
  | found request attempt found => exact ⟨h.1, h.2.mono hsub⟩
  | freezing request record landed => exact ⟨h.1, hsub h.2⟩
  | draining request mode => exact ⟨h.1, hsub h.2.1, h.2.2⟩
  | working cleared => exact trivial
  | marking record landed => exact trivial

theorem LifeOk.mono {life : Life V} (h : LifeOk etag history acked life) (hsub : history ⊆ history') :
    LifeOk etag history' acked life := by
  cases life with
  | absent => exact trivial
  | loading found => exact ⟨h.1.mono hsub, h.2⟩
  | alive i => exact ⟨h.seen.mono hsub, h.acked, fun stage hturn => (h.turn stage hturn).mono hsub⟩

theorem TurnOk.same (h : TurnOk etag history b stage) (hcurrent : b'.current = b.current) (hversion : b'.version = b.version) :
    TurnOk etag history b' stage := by
  cases stage <;> simp only [TurnOk, hcurrent, hversion] at h ⊢ <;> exact h

theorem AliveOk.same (h : AliveOk etag history acked i) (hsame : SameState i i') : AliveOk etag history acked i' := by
  refine ⟨?_, ?_, ?_⟩
  · rw [hsame.stored, hsame.version]
    exact h.seen
  · rw [hsame.current]
    exact h.acked
  · intro stage hturn
    exact (h.turn stage (hsame.turn ▸ hturn)).same hsame.current hsame.version

theorem Ordered.alive (h : Ordered etag s) (hlife : s.life = .alive i) : AliveOk etag s.history (acknowledged s.results) i := by
  have hok := h.life
  rw [hlife] at hok
  exact hok

theorem Ordered.withInstance (h : Ordered etag s) (hi : AliveOk etag s.history (acknowledged s.results) i) :
    Ordered etag (s.withInstance i) := ⟨h.history, h.ackedHeld, h.ackedInOrder, h.late, hi⟩

/-- An answer that acknowledges nothing. -/
theorem Ordered.answer {result : TransitionResult} (h : Ordered etag s)
    (hi : AliveOk etag s.history (acknowledged s.results) { i with turn := none }) (hresult : ∀ ack, result ≠ .acknowledged ack) :
    Ordered etag (s.answer i request result) := by
  have hacks : acknowledged (s.answer i request result).results = acknowledged s.results := by
    show acknowledged (s.results ++ [(request, result)]) = acknowledged s.results
    cases result with
    | acknowledged ack => exact absurd rfl (hresult ack)
    | _ => simp [acknowledged]
  refine ⟨h.history, ?_, ?_, h.late, ?_⟩
  · rw [hacks]
    exact h.ackedHeld
  · rw [hacks]
    exact h.ackedInOrder
  · rw [hacks]
    exact hi

theorem Ordered.withLate {late : List (Put V)} (h : Ordered etag s)
    (hlate : ∀ request version, Put.state request version ∈ late → Safe etag request version) :
    Ordered etag { s with late := late } := ⟨h.history, h.ackedHeld, h.ackedInOrder, hlate, h.life⟩

/-! ## What the turn's moves keep -/

/-- A transition memory accepts is not refused by what the instance last read of R2. -/
def Heeds (s : System V) : Event → Prop
  | .takeUp request _ => ∀ i, s.life = .alive i → i.turn = none →
      opsTransitionRefused i.barrier.current request = false → opsTransitionRefused i.barrier.stored request = false
  | _ => True

variable (etag) in
theorem follows_holds (hord : history.Pairwise Follows) (hmem : a ∈ history) :
    ∃ c, (holds etag history).map (fun found => found.state) = some c ∧ Follows a c := by
  cases hlast : history.getLast? with
  | none =>
    rw [List.getLast?_eq_none_iff.mp hlast] at hmem
    cases hmem
  | some c => exact ⟨c, by simp [holds, hlast], follows_last hord hlast hmem⟩

/-- Memory that accepts a request is followed by it, and so is all that memory follows. -/
theorem acked_follows_request (h : AliveOk etag history acked i)
    (hpass : opsTransitionRefused i.barrier.current request = false) : ∀ a ∈ acked, Follows a request := by
  intro a ha
  obtain ⟨c, hcurrent, hfollows⟩ := h.acked a ha
  rw [hcurrent] at hpass
  exact hfollows.trans (refused_eq_false_iff.mp hpass)

theorem acked_follows_current (h : AliveOk etag history acked i) (hcurrent : i.barrier.current = some request) :
    ∀ a ∈ acked, Follows a request := by
  refine acked_follows_request h ?_
  rw [hcurrent]
  exact refused_eq_false_iff.mpr (Follows.refl request)

theorem load_current (found : Option (StoredMaintenance V)) (frozen : Option FrozenRecord) :
    (load found frozen).current = found.map fun found => found.state := by
  cases found with
  | none => rfl
  | some found => rfl

theorem AliveOk.startDrain (hseen : Seen etag history b.stored b.version) (hacked : ∀ a ∈ acked, Follows a request)
    (hcurrent : b.current = some request) (hmem : request ∈ history) : AliveOk etag history acked (i.startDrain b request) := by
  refine ⟨hseen, fun a ha => ⟨request, hcurrent, hacked a ha⟩, ?_⟩
  intro stage hturn
  cases hturn
  refine ⟨hcurrent, hmem, ?_⟩
  unfold Barrier.current at hcurrent
  obtain ⟨g, _, hstate⟩ := Option.map_eq_some_iff.mp hcurrent
  rw [← hstate]

/-- A state R2 holds that refuses a request follows everything acknowledged before it. -/
theorem adopted_follows (hord : history.Pairwise Follows) (hheld : ∀ a ∈ acked, a ∈ history) (h : AliveOk etag history acked i)
    (hpass : opsTransitionRefused i.barrier.current request = false) (hc : c ∈ history)
    (hrefused : opsTransitionRefused (some c) request = true) : ∀ a ∈ acked, Follows a c := by
  intro a ha
  have hrequest : Follows a request := acked_follows_request h hpass a ha
  rcases held_comparable hord (hheld a ha) hc with hfollows | hback
  · exact hfollows
  · exfalso
    have hle : c.generation ≤ a.generation := hback.generation_le
    have hle' : a.generation ≤ request.generation := hrequest.generation_le
    rcases refused_iff.mp hrefused with hlt | ⟨heq, hmode⟩
    · omega
    · have hca : c = a := hback.eq_of_generation_eq (by omega)
      have har : a = request := hrequest.eq_of_generation_eq (by omega)
      exact hmode (by rw [hca, har])

theorem AliveOk.idle (h : AliveOk etag history acked i) (hstored : i'.barrier.stored = i.barrier.stored)
    (hversion : i'.barrier.version = i.barrier.version) (hcurrent : i'.barrier.current = i.barrier.current)
    (hturn : ∀ stage, i'.turn = some stage → TurnOk etag history i.barrier stage) : AliveOk etag history acked i' := by
  refine ⟨?_, ?_, ?_⟩
  · rw [hstored, hversion]
    exact h.seen
  · rw [hcurrent]
    exact h.acked
  · intro stage hstage
    exact (hturn stage hstage).same hcurrent hversion

/-- Memory as the conflict's read leaves it. -/
theorem AliveOk.reread {found : Option (StoredMaintenance V)} (h : AliveOk etag history acked i) {turn : Option (Stage V)}
    (hseen : Seen etag history (found.map fun found => found.state) (found.map fun found => found.version))
    (hturn : ∀ stage, turn = some stage → TurnOk etag history (i.barrier.reread found) stage) :
    AliveOk etag history acked { i with barrier := i.barrier.reread found, turn := turn } := ⟨hseen, h.acked, hturn⟩

theorem Ordered.withFrozen (h : Ordered etag s) (frozen : Option FrozenRecord) : Ordered etag { s with frozen := frozen } :=
  ⟨h.history, h.ackedHeld, h.ackedInOrder, h.late, h.life⟩

theorem Ordered.publish (h : Ordered etag s) (hheeds : Heeds s (.takeUp request frozen)) (hlife : s.life = .alive i)
    (hturn : i.turn = none) (hup : i.barrier.takeUp request frozen = .publish b) :
    Ordered etag (s.withInstance { i with barrier := b, turn := some (.putting request 0) }) := by
  have halive := h.alive hlife
  obtain ⟨hpass, hb⟩ := takeUp_publish hup
  have hsafe : Safe etag request i.barrier.version := halive.seen.safe (hheeds i hlife hturn hpass)
  apply h.withInstance
  by_cases hrank : rank request.mode > rank i.barrier.mode
  · rw [if_pos hrank] at hb
    subst hb
    -- a tightening transition is in memory already, so memory accepts it as a retry
    refine ⟨halive.seen, fun a ha => ⟨request, rfl, acked_follows_request halive hpass a ha⟩, ?_⟩
    intro stage hstage
    cases hstage
    exact ⟨refused_eq_false_iff.mpr (Follows.refl request), hsafe⟩
  · rw [if_neg hrank] at hb
    subst hb
    refine halive.idle rfl rfl rfl ?_
    intro stage hstage
    cases hstage
    exact ⟨hpass, hsafe⟩

theorem Ordered.drained {mode : OpsMode} (h : Ordered etag s) (hlife : s.life = .alive i)
    (hturn : i.turn = some (.draining request mode)) (stillRunning : Nat) :
    Ordered etag (s.answer i request (.acknowledged ⟨request.generation, request.mode, stillRunning⟩)) := by
  have halive := h.alive hlife
  obtain ⟨hcurrent, hmem, _⟩ := halive.turn _ hturn
  have hfollows : ∀ a ∈ acknowledged s.results, Follows a request := by
    intro a ha
    obtain ⟨c, hc, hac⟩ := halive.acked a ha
    rw [hcurrent] at hc
    cases hc
    exact hac
  have hacks : acknowledged (s.results ++ [(request, .acknowledged ⟨request.generation, request.mode, stillRunning⟩)])
      = acknowledged s.results ++ [request] := by simp [acknowledged]
  refine ⟨h.history, ?_, ?_, h.late, ?_⟩
  · show ∀ a ∈ acknowledged (s.results ++ [_]), a ∈ s.history
    rw [hacks]
    intro a ha
    rcases List.mem_append.mp ha with ha | ha
    · exact h.ackedHeld a ha
    · rw [List.mem_singleton.mp ha]
      exact hmem
  · show (acknowledged (s.results ++ [_])).Pairwise Follows
    rw [hacks]
    refine List.pairwise_append.mpr ⟨h.ackedInOrder, List.pairwise_singleton _ _, ?_⟩
    intro a ha c hc
    rw [List.mem_singleton.mp hc]
    exact hfollows a ha
  · show AliveOk etag s.history (acknowledged (s.results ++ [_])) { i with turn := none }
    rw [hacks]
    refine ⟨halive.seen, ?_, fun stage hstage => nomatch hstage⟩
    intro a ha
    refine ⟨request, hcurrent, ?_⟩
    rcases List.mem_append.mp ha with ha | ha
    · exact hfollows a ha
    · rw [List.mem_singleton.mp ha]
      exact Follows.refl request

theorem pending_safe (h : AliveOk etag history acked i) (hmem : Put.state request version ∈ i.pending) :
    Safe etag request version := by
  unfold Instance.pending at hmem
  split at hmem
  · rename_i hturn
    cases List.mem_singleton.mp hmem
    exact (h.turn _ hturn).2
  · cases List.mem_singleton.mp hmem
  · cases List.mem_singleton.mp hmem
  · cases hmem

theorem Ordered.lateAppend (h : Ordered etag s) (hlife : s.life = .alive i) :
    Ordered etag { s with late := s.late ++ i.pending } := by
  apply h.withLate
  intro request version hmem
  rcases List.mem_append.mp hmem with hmem | hmem
  · exact h.late _ _ hmem
  · exact pending_safe (h.alive hlife) hmem

/-! ## R2 gets to a put -/

variable [DecidableEq V]

variable (etag) in
theorem put_cases (history : List OpsPublishedState) (request : OpsPublishedState) (version : Option V) :
    (put etag history request version = (history, none)) ∨
      (matches' etag history version ∧ put etag history request version =
        (history ++ [request], some (etag (history.length + 1) request))) := by
  unfold put
  split
  · rename_i h
    exact .inr ⟨h, rfl⟩
  · exact .inl rfl

theorem put_subset : history ⊆ (put etag history request version).1 := by
  rcases put_cases etag history request version with h | ⟨_, h⟩
  · rw [h]
    exact List.Subset.refl _
  · rw [h]
    exact List.subset_append_left _ _

theorem put_ordered (hetag : Names etag) (hsafe : Safe etag request version) (hord : history.Pairwise Follows) :
    (put etag history request version).1.Pairwise Follows := by
  rcases put_cases etag history request version with h | ⟨hmatch, h⟩
  · rw [h]
    exact hord
  · rw [h]
    refine List.pairwise_append.mpr ⟨hord, List.pairwise_singleton _ _, ?_⟩
    intro a ha c hc
    rw [List.mem_singleton.mp hc]
    cases hlast : history.getLast? with
    | none =>
      rw [List.getLast?_eq_none_iff.mp hlast] at ha
      cases ha
    | some last =>
      have hversion : version = some (etag history.length last) := by
        rw [← hmatch, holds, hlast]
        rfl
      obtain ⟨n, c', hname, hfollows⟩ := hsafe _ hversion
      have hsame : last = c' := hetag _ _ _ _ hname
      exact (follows_last hord hlast ha).trans (hsame ▸ hfollows)

/-- A put R2 gets to keeps every promise made before it. -/
theorem Ordered.landed {life : Life V} (hetag : Names etag) (h : Ordered etag s) (hsafe : Safe etag request version)
    (hlife : LifeOk etag (put etag s.history request version).1 (acknowledged s.results) life) :
    Ordered etag { s with history := (put etag s.history request version).1, life := life } :=
  ⟨put_ordered hetag hsafe h.history, fun a ha => put_subset (h.ackedHeld a ha), h.ackedInOrder, h.late, hlife⟩

/-! ## What a step can do -/

variable (etag) in
inductive Moves (s : System V) : Event → System V → Prop
  | idle (event : Event) : Moves s event s
  | load : s.life = .absent → Moves s .load { s with life := .loading (holds etag s.history) }
  | loaded (found : Option (StoredMaintenance V)) (frozen : Option FrozenRecord) : s.life = .loading found →
      (frozen = s.frozen ∨ found.all (fun found => decide (found.state.mode = .open)) = true) →
      Moves s .loaded (s.withInstance ⟨Maintenance.load found frozen, none, [], [], []⟩)
  | notLoaded : (∀ i, s.life ≠ .alive i) → Moves s .evict { s with life := .absent }
  | evicted (i : Instance V) : s.life = .alive i → Moves s .evict { s with late := s.late ++ i.pending, life := .absent }
  | lateState (index : Nat) (request : OpsPublishedState) (version : Option V) : s.late[index]? = some (.state request version) →
      Moves s (.late index) { s with history := (put etag s.history request version).1, late := s.late.eraseIdx index }
  | lateFrozen (index : Nat) (record : FrozenRecord) : s.late[index]? = some (.frozen record) →
      Moves s (.late index) { s with frozen := some record, late := s.late.eraseIdx index }
  | aside (event : Event) (i i' : Instance V) : s.life = .alive i → Aside i i' → Moves s event (s.withInstance i')
  | refused (i : Instance V) (request : OpsPublishedState) (frozen : Bool) (result : TransitionResult) :
    s.life = .alive i → i.turn = none →
      i.barrier.takeUp request frozen = .answer result → Moves s (.takeUp request frozen) (s.answer i request result)
  | publish (i : Instance V) (request : OpsPublishedState) (frozen : Bool) (b : Barrier V) : s.life = .alive i → i.turn = none →
      i.barrier.takeUp request frozen = .publish b →
      Moves s (.takeUp request frozen) (s.withInstance { i with barrier := b, turn := some (.putting request 0) })
  | again (i : Instance V) (request : OpsPublishedState) (frozen : Bool) : s.life = .alive i → i.turn = none →
      i.barrier.takeUp request frozen = .drain →
      Moves s (.takeUp request frozen) (s.withInstance (i.startDrain i.barrier request))
  | putLands (i : Instance V) (request : OpsPublishedState) (attempt : Nat) :
    s.life = .alive i → i.turn = some (.putting request attempt) →
      Moves s .putLands ({ s with history := (put etag s.history request i.barrier.version).1 }.withInstance
        { i with turn := some (.answering request attempt (put etag s.history request i.barrier.version).2) })
  | conflict (i : Instance V) (request : OpsPublishedState) (attempt : Nat) : s.life = .alive i →
      i.turn = some (.answering request attempt none) →
      Moves s .putAnswers (s.withInstance { i with turn := some (.reading request attempt) })
  | opened (i : Instance V) (request : OpsPublishedState) (attempt : Nat) (version : V) : s.life = .alive i →
      i.turn = some (.answering request attempt (some version)) → request.mode = .open →
      Moves s .putAnswers (s.withInstance (i.startDrain { i.barrier.published request version with frozenSince := none } request))
  | restricted (i : Instance V) (request : OpsPublishedState) (attempt : Nat) (version : V) : s.life = .alive i →
      i.turn = some (.answering request attempt (some version)) → request.mode ≠ .open →
      Moves s .putAnswers (s.withInstance
        { i with barrier :=
          { i.barrier.published request version with frozenSince := some (i.barrier.frozenSince.getD request.generation) }
                 turn := some (.freezing request ⟨request.generation, i.barrier.frozenSince.getD request.generation⟩ false) })
  | putLost (i : Instance V) (request : OpsPublishedState) (attempt : Nat) :
    s.life = .alive i → i.turn = some (.putting request attempt) →
      Moves s .putFails ({ s with late := s.late ++ [Put.state request i.barrier.version] }.answer i request .failed)
  | answerLost (i : Instance V) (request : OpsPublishedState) (attempt : Nat) (version : Option V) : s.life = .alive i →
      i.turn = some (.answering request attempt version) → Moves s .putFails (s.answer i request .failed)
  | readLands (i : Instance V) (request : OpsPublishedState) (attempt : Nat) :
    s.life = .alive i → i.turn = some (.reading request attempt) →
      Moves s .readLands (s.withInstance { i with turn := some (.found request attempt (holds etag s.history)) })
  | adopted (i : Instance V) (request : OpsPublishedState) (attempt : Nat) (found : StoredMaintenance V) : s.life = .alive i →
      i.turn = some (.found request attempt (some found)) → opsTransitionRefused (some found.state) request = true →
      Moves s .readAnswers (s.answer { i with barrier := (i.barrier.reread (some found)).adopt found.state } request
        (.stale (some found.state)))
  | retried (i : Instance V) (request : OpsPublishedState) (attempt : Nat) (found : Option (StoredMaintenance V)) :
    s.life = .alive i →
      i.turn = some (.found request attempt found) → opsTransitionRefused (found.map fun found => found.state) request = false →
      Moves s .readAnswers
        (s.withInstance { i with barrier := i.barrier.reread found, turn := some (.putting request (attempt + 1)) })
  | exhausted (i : Instance V) (request : OpsPublishedState) (attempt : Nat) (found : Option (StoredMaintenance V)) :
    s.life = .alive i →
      i.turn = some (.found request attempt found) → opsTransitionRefused (found.map fun found => found.state) request = false →
      Moves s .readAnswers (s.answer { i with barrier := i.barrier.reread found } request .failed)
  | readLost (i : Instance V) (request : OpsPublishedState) (attempt : Nat) : s.life = .alive i →
      (i.turn = some (.reading request attempt) ∨ ∃ found, i.turn = some (.found request attempt found)) →
      Moves s .readFails (s.answer i request .failed)
  | frozenLands (i : Instance V) (request : OpsPublishedState) (record : FrozenRecord) : s.life = .alive i →
      i.turn = some (.freezing request record false) →
      Moves s .frozenLands ({ s with frozen := some record }.withInstance { i with turn := some (.freezing request record true) })
  | markLands (i : Instance V) (record : FrozenRecord) : s.life = .alive i → i.turn = some (.marking record false) →
      Moves s .frozenLands ({ s with frozen := some record }.withInstance { i with turn := some (.marking record true) })
  | frozenAnswers (i : Instance V) (request : OpsPublishedState) (record : FrozenRecord) : s.life = .alive i →
      i.turn = some (.freezing request record true) → Moves s .frozenAnswers (s.withInstance (i.startDrain i.barrier request))
  | frozenFails (i : Instance V) (request : OpsPublishedState) (record : FrozenRecord) (landed : Bool) : s.life = .alive i →
      i.turn = some (.freezing request record landed) →
      Moves s .frozenFails ({ s with late := s.late ++ i.pending }.withInstance (i.startDrain i.barrier request))
  | marked (i : Instance V) (record : FrozenRecord) : s.life = .alive i → i.turn = some (.marking record true) →
      Moves s .frozenAnswers (s.withInstance { i with turn := some (.working true) })
  | markFails (i : Instance V) (record : FrozenRecord) (landed : Bool) :
    s.life = .alive i → i.turn = some (.marking record landed) →
      Moves s .frozenFails ({ s with late := s.late ++ i.pending }.withInstance { i with turn := none })
  | drained (i : Instance V) (request : OpsPublishedState) (mode : OpsMode) :
    s.life = .alive i → i.turn = some (.draining request mode) →
      Moves s .drained (s.answer i request (.acknowledged ⟨request.generation, request.mode, i.barrier.running mode⟩))
  | work (i : Instance V) (generation : Nat) : s.life = .alive i → i.turn = none → i.barrier.isPublished = true →
      i.barrier.generation = some generation → Moves s (.work generation)
        (s.withInstance { i with turn := some (.working false) })
  | cleared (i : Instance V) : s.life = .alive i → i.turn = some (.working false) → i.barrier.restrictedWrite = none →
      Moves s .restrictedWrite (s.withInstance { i with turn := some (.working true) })
  | marks (i : Instance V) (b : Barrier V) (record : FrozenRecord) : s.life = .alive i → i.turn = some (.working false) →
      i.barrier.restrictedWrite = some (b, record) →
      Moves s .restrictedWrite (s.withInstance { i with barrier := b, turn := some (.marking record false) })
  | done (i : Instance V) (cleared : Bool) : s.life = .alive i → i.turn = some (.working cleared) →
      Moves s .done (s.withInstance { i with turn := none })

theorem putAnswers_moves {attempt : Nat} (hlife : s.life = .alive i)
    (hturn : i.turn = some (.answering request attempt version)) :
    Moves etag s .putAnswers (putAnswers s i request attempt version) := by
  cases version with
  | none => exact .conflict i request attempt hlife hturn
  | some version =>
    by_cases hopen : request.mode = .open
    · have h : Moves etag s _ _ := .opened i request attempt version hlife hturn hopen
      simpa only [putAnswers, Barrier.froze, if_pos hopen] using h
    · have h : Moves etag s _ _ := .restricted i request attempt version hlife hturn hopen
      simpa only [putAnswers, Barrier.froze, Barrier.published, if_neg hopen] using h

theorem readAnswers_moves {attempt : Nat} {found : Option (StoredMaintenance V)} (hlife : s.life = .alive i)
    (hturn : i.turn = some (.found request attempt found)) :
    Moves etag s .readAnswers (readAnswers s i request attempt found) := by
  unfold readAnswers
  dsimp only
  cases found with
  | none =>
    dsimp only
    split
    · exact .retried i request attempt none hlife hturn rfl
    · exact .exhausted i request attempt none hlife hturn rfl
  | some found =>
    dsimp only
    split
    · rename_i hrefused
      exact .adopted i request attempt found hlife hturn hrefused
    · rename_i hrefused
      have hpass : opsTransitionRefused (some found.state) request = false := by simpa using hrefused
      split
      · exact .retried i request attempt (some found) hlife hturn hpass
      · exact .exhausted i request attempt (some found) hlife hturn hpass

theorem advance_moves (hlife : s.life = .alive i) (hturn : i.turn = some stage) (event : Event) :
    Moves etag s event (advance etag s i stage event) := by
  cases event with
  | putLands =>
    cases stage with
    | putting request attempt => exact .putLands i request attempt hlife hturn
    | _ => exact .idle _
  | putAnswers =>
    cases stage with
    | answering request attempt version => exact putAnswers_moves hlife hturn
    | _ => exact .idle _
  | putFails =>
    cases stage with
    | putting request attempt =>
      have h : Moves etag s _ _ := .putLost i request attempt hlife hturn
      simpa only [advance, Instance.pending, hturn] using h
    | answering request attempt version => exact .answerLost i request attempt version hlife hturn
    | _ => exact .idle _
  | readLands =>
    cases stage with
    | reading request attempt => exact .readLands i request attempt hlife hturn
    | _ => exact .idle _
  | readAnswers =>
    cases stage with
    | found request attempt found => exact readAnswers_moves hlife hturn
    | _ => exact .idle _
  | readFails =>
    cases stage with
    | reading request attempt => exact .readLost i request attempt hlife (.inl hturn)
    | found request attempt found => exact .readLost i request attempt hlife (.inr ⟨found, hturn⟩)
    | _ => exact .idle _
  | frozenLands =>
    cases stage with
    | freezing request record landed =>
      cases landed with
      | false => exact .frozenLands i request record hlife hturn
      | true => exact .idle _
    | marking record landed =>
      cases landed with
      | false => exact .markLands i record hlife hturn
      | true => exact .idle _
    | _ => exact .idle _
  | frozenAnswers =>
    cases stage with
    | freezing request record landed =>
      cases landed with
      | false => exact .idle _
      | true => exact .frozenAnswers i request record hlife hturn
    | marking record landed =>
      cases landed with
      | false => exact .idle _
      | true => exact .marked i record hlife hturn
    | _ => exact .idle _
  | frozenFails =>
    cases stage with
    | freezing request record landed => exact .frozenFails i request record landed hlife hturn
    | marking record landed => exact .markFails i record landed hlife hturn
    | _ => exact .idle _
  | drained =>
    cases stage with
    | draining request mode => exact .drained i request mode hlife hturn
    | _ => exact .idle _
  | restrictedWrite =>
    cases stage with
    | working cleared =>
      cases cleared with
      | true => exact .idle _
      | false =>
        unfold advance
        dsimp only
        split
        · rename_i hnone
          exact .cleared i hlife hturn hnone
        · rename_i b record hsome
          exact .marks i b record hlife hturn hsome
    | _ => exact .idle _
  | done =>
    cases stage with
    | working cleared => exact .done i cleared hlife hturn
    | _ => exact .idle _
  | _ => exact .idle _

theorem react_moves (hlife : s.life = .alive i) (event : Event) : Moves etag s event (react etag s i event) := by
  unfold react
  split
  · rename_i request frozen
    split
    · rename_i hturn
      unfold takeUp
      split
      · rename_i result hup
        exact .refused i request frozen result hlife hturn hup
      · rename_i b hup
        exact .publish i request frozen b hlife hturn hup
      · rename_i hup
        exact .again i request frozen hlife hturn hup
    · exact .idle _
  · rename_i generation
    split
    · rename_i h
      exact .work i generation hlife h.1 h.2.1 h.2.2
    · exact .idle _
  · exact .aside _ i _ hlife (.captured i)
  · rename_i event kind
    split
    · rename_i hmem
      unfold Barrier.admits
      split
      · rename_i b admission hadm
        split at hadm
        · rename_i h
          cases hadm
          exact .aside _ i _ hlife (.admitted i event kind hmem h.1 h.2)
        · cases hadm
      · exact .idle _
    · exact .idle _
  · rename_i admission
    split
    · rename_i hmem
      exact .aside _ i _ hlife (.tracked i admission hmem)
    · exact .idle _
  · rename_i unit
    split
    · rename_i hmem
      exact .aside _ i _ hlife (.settled i unit hmem)
    · exact .idle _
  · rename_i admission
    split
    · rename_i h
      exact .aside _ i _ hlife (.released i admission h.1 h.2)
    · exact .idle _
  · split
    · rename_i stage hturn
      exact advance_moves hlife hturn _
    · exact .idle _

theorem next_moves (s : System V) (event : Event) : Moves etag s event (next etag s event) := by
  unfold next
  split
  · rename_i index
    unfold landLate
    split
    · rename_i request version h
      exact .lateState index request version h
    · rename_i record h
      exact .lateFrozen index record h
    · exact .idle _
  · unfold evict
    split
    · rename_i i hlife
      exact .evicted i hlife
    · rename_i hnot
      exact .notLoaded hnot
  · rename_i hlife
    exact .load hlife
  · rename_i found hlife
    dsimp only
    by_cases hopen : found.all (fun found => decide (found.state.mode = .open)) = true
    · rw [if_pos hopen]
      exact .loaded found none hlife (.inr hopen)
    · rw [if_neg hopen]
      exact .loaded found s.frozen hlife (.inl rfl)
  · rename_i hlife
    exact react_moves hlife _
  · exact .idle _

/-! ## A step keeps the order -/

theorem step_ordered {s' : System V} {event : Event} (hetag : Names etag) (h : Ordered etag s) (hheeds : Heeds s event)
    (hmove : Moves etag s event s') : Ordered etag s' := by
  cases hmove with
  | idle => exact h
  | load hlife =>
    exact ⟨h.history, h.ackedHeld, h.ackedInOrder, h.late, seen_holds, fun a ha => follows_holds etag h.history
      (h.ackedHeld a ha)⟩
  | loaded found frozen hlife _ =>
    have hok := h.life
    rw [hlife] at hok
    apply h.withInstance
    refine ⟨hok.1, ?_, fun stage hstage => nomatch hstage⟩
    rw [load_current]
    exact hok.2
  | notLoaded => exact ⟨h.history, h.ackedHeld, h.ackedInOrder, h.late, trivial⟩
  | evicted i hlife =>
    have hlate := (h.lateAppend hlife).late
    exact ⟨h.history, h.ackedHeld, h.ackedInOrder, hlate, trivial⟩
  | lateState index request version hput =>
    have hsafe : Safe etag request version := h.late _ _ (List.mem_of_getElem? hput)
    refine (h.landed hetag hsafe (h.life.mono put_subset)).withLate ?_
    intro request' version' hmem
    exact h.late _ _ (List.mem_of_mem_eraseIdx hmem)
  | lateFrozen index record _ =>
    refine ⟨h.history, h.ackedHeld, h.ackedInOrder, ?_, h.life⟩
    intro request' version' hmem
    exact h.late _ _ (List.mem_of_mem_eraseIdx hmem)
  | aside _ i i' hlife haside => exact h.withInstance ((h.alive hlife).same haside.same)
  | refused i request frozen result hlife hturn hup =>
    refine h.answer ((h.alive hlife).idle rfl rfl rfl (fun _ hs => nomatch hs)) ?_
    intro ack hack
    rcases takeUp_answer hup with heq | heq <;> rw [heq] at hack <;> cases hack
  | publish i request frozen b hlife hturn hup => exact h.publish hheeds hlife hturn hup
  | again i request frozen hlife hturn hup =>
    have halive := h.alive hlife
    obtain ⟨hstored, hcurrent⟩ := takeUp_drain hup
    have hmem : request ∈ s.history := by
      rcases halive.seen with ⟨hnone, _⟩ | ⟨c, n, hc, _, hmem⟩
      · rw [hnone] at hstored
        cases hstored
      · rw [hstored] at hc
        cases hc
        exact hmem
    exact h.withInstance (.startDrain halive.seen (acked_follows_current halive hcurrent) hcurrent hmem)
  | putLands i request attempt hlife hturn =>
    have halive := h.alive hlife
    obtain ⟨hpass, hsafe⟩ := halive.turn _ hturn
    refine h.landed hetag hsafe ?_
    refine ⟨halive.seen.mono put_subset, halive.acked, ?_⟩
    intro stage hstage
    cases hstage
    refine ⟨hpass, fun v hv => ?_⟩
    rcases put_cases etag s.history request i.barrier.version with hput | ⟨_, hput⟩
    · rw [hput] at hv
      cases hv
    · rw [hput] at hv ⊢
      cases hv
      exact ⟨List.mem_append_right _ (List.mem_singleton_self _), _, rfl⟩
  | conflict i request attempt hlife hturn =>
    have halive := h.alive hlife
    refine h.withInstance (halive.idle rfl rfl rfl ?_)
    intro stage hstage
    cases hstage
    exact (halive.turn _ hturn).1
  | opened i request attempt version hlife hturn hopen =>
    have halive := h.alive hlife
    obtain ⟨hpass, hversion⟩ := halive.turn _ hturn
    obtain ⟨hmem, n, hname⟩ := hversion version rfl
    have hseen : Seen etag s.history (some request) (some version) := .inr ⟨request, n, rfl, by rw [hname], hmem⟩
    exact h.withInstance (.startDrain hseen (acked_follows_request halive hpass) rfl hmem)
  | restricted i request attempt version hlife hturn hmode =>
    have halive := h.alive hlife
    obtain ⟨hpass, hversion⟩ := halive.turn _ hturn
    obtain ⟨hmem, n, hname⟩ := hversion version rfl
    have hseen : Seen etag s.history (some request) (some version) := .inr ⟨request, n, rfl, by rw [hname], hmem⟩
    refine h.withInstance ⟨hseen, fun a ha => ⟨request, rfl, acked_follows_request halive hpass a ha⟩, ?_⟩
    intro stage hstage
    cases hstage
    exact ⟨rfl, hmem⟩
  | putLost i request attempt hlife hturn =>
    have hlate := h.lateAppend hlife
    simp only [Instance.pending, hturn] at hlate
    exact hlate.answer ((h.alive hlife).idle rfl rfl rfl (fun _ hs => nomatch hs)) (fun _ hack => nomatch hack)
  | answerLost i request attempt version hlife hturn =>
    exact h.answer ((h.alive hlife).idle rfl rfl rfl (fun _ hs => nomatch hs)) (fun _ hack => nomatch hack)
  | readLands i request attempt hlife hturn =>
    have halive := h.alive hlife
    refine h.withInstance (halive.idle rfl rfl rfl ?_)
    intro stage hstage
    cases hstage
    exact ⟨halive.turn _ hturn, seen_holds⟩
  | adopted i request attempt found hlife hturn hrefused =>
    have halive := h.alive hlife
    obtain ⟨hpass, hseen⟩ := halive.turn _ hturn
    have hmem : found.state ∈ s.history := by
      rcases hseen with ⟨hnone, _⟩ | ⟨c, n, hc, _, hmem⟩
      · cases hnone
      · cases hc
        exact hmem
    have hfollows := adopted_follows h.history h.ackedHeld halive hpass hmem hrefused
    exact h.answer ⟨hseen, fun a ha => ⟨found.state, rfl, hfollows a ha⟩, fun _ hs => nomatch hs⟩ (fun _ hack => nomatch hack)
  | retried i request attempt found hlife hturn hpass =>
    have halive := h.alive hlife
    obtain ⟨haccepts, hseen⟩ := halive.turn _ hturn
    refine h.withInstance (halive.reread hseen ?_)
    intro stage hstage
    cases hstage
    exact ⟨haccepts, hseen.safe hpass⟩
  | exhausted i request attempt found hlife hturn hpass =>
    have halive := h.alive hlife
    obtain ⟨haccepts, hseen⟩ := halive.turn _ hturn
    exact h.answer (halive.reread hseen (fun _ hs => nomatch hs)) (fun _ hack => nomatch hack)
  | readLost i request attempt hlife hturn =>
    exact h.answer ((h.alive hlife).idle rfl rfl rfl (fun _ hs => nomatch hs)) (fun _ hack => nomatch hack)
  | frozenLands i request record hlife hturn =>
    have halive := h.alive hlife
    refine (h.withFrozen _).withInstance (halive.idle rfl rfl rfl ?_)
    intro stage hstage
    cases hstage
    have hok := halive.turn _ hturn
    exact hok
  | markLands i record hlife hturn =>
    refine (h.withFrozen _).withInstance ((h.alive hlife).idle rfl rfl rfl ?_)
    intro stage hstage
    cases hstage
    exact trivial
  | frozenAnswers i request record hlife hturn =>
    have halive := h.alive hlife
    obtain ⟨hcurrent, hmem⟩ := halive.turn _ hturn
    exact h.withInstance (.startDrain halive.seen (acked_follows_current halive hcurrent) hcurrent hmem)
  | frozenFails i request record landed hlife hturn =>
    have halive := h.alive hlife
    obtain ⟨hcurrent, hmem⟩ := halive.turn _ hturn
    exact (h.lateAppend hlife).withInstance (.startDrain halive.seen (acked_follows_current halive hcurrent) hcurrent hmem)
  | marked i record hlife hturn =>
    refine h.withInstance ((h.alive hlife).idle rfl rfl rfl ?_)
    intro stage hstage
    cases hstage
    exact trivial
  | markFails i record landed hlife hturn =>
    exact (h.lateAppend hlife).withInstance ((h.alive hlife).idle rfl rfl rfl (fun _ hs => nomatch hs))
  | drained i request mode hlife hturn => exact h.drained hlife hturn _
  | work i generation hlife hturn _ _ =>
    refine h.withInstance ((h.alive hlife).idle rfl rfl rfl ?_)
    intro stage hstage
    cases hstage
    exact trivial
  | cleared i hlife hturn _ =>
    refine h.withInstance ((h.alive hlife).idle rfl rfl rfl ?_)
    intro stage hstage
    cases hstage
    exact trivial
  | marks i b record hlife hturn hwrite =>
    obtain ⟨hstored, hversion, hcurrent⟩ := restrictedWrite_same hwrite
    refine h.withInstance ((h.alive hlife).idle hstored hversion hcurrent ?_)
    intro stage hstage
    cases hstage
    exact trivial
  | done i cleared hlife hturn => exact h.withInstance ((h.alive hlife).idle rfl rfl rfl (fun _ hs => nomatch hs))

/-- R2's history and the answers only grow. -/
theorem step_grows {s' : System V} {event : Event} (hmove : Moves etag s event s') :
    s.history <+: s'.history ∧ s.results <+: s'.results := by
  have hput : ∀ request version, s.history <+: (put etag s.history request version).1 := by
    intro request version
    rcases put_cases etag s.history request version with h | ⟨_, h⟩
    · exact h ▸ List.prefix_refl _
    · exact h ▸ List.prefix_append _ _
  cases hmove with
  | lateState index request version _ => exact ⟨hput request version, List.prefix_refl _⟩
  | putLands i request attempt _ _ => exact ⟨hput request i.barrier.version, List.prefix_refl _⟩
  | refused i request frozen result _ _ _ => exact ⟨List.prefix_refl _, List.prefix_append _ _⟩
  | putLost i request attempt _ _ => exact ⟨List.prefix_refl _, List.prefix_append _ _⟩
  | answerLost i request attempt version _ _ => exact ⟨List.prefix_refl _, List.prefix_append _ _⟩
  | adopted i request attempt found _ _ _ => exact ⟨List.prefix_refl _, List.prefix_append _ _⟩
  | exhausted i request attempt found _ _ _ => exact ⟨List.prefix_refl _, List.prefix_append _ _⟩
  | readLost i request attempt _ _ => exact ⟨List.prefix_refl _, List.prefix_append _ _⟩
  | drained i request mode _ _ => exact ⟨List.prefix_refl _, List.prefix_append _ _⟩
  | _ => exact ⟨List.prefix_refl _, List.prefix_refl _⟩

end Fabrika.App.Maintenance
