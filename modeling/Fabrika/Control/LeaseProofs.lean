/-
  Fabrika.Control.LeaseProofs — a lease has one acting holder (see `Fabrika.Control.Lease`).

  A holder is covered until a time when the row names it with no earlier expiry, or that time has
  passed (`Covered`). Acquiring and renewing cover one TTL from the clock reading before the call;
  the row of a holder is lost to another only behind its expiry, so what is covered stays covered
  (`RowMove.covered`). An acting lease is covered 30 s past its local deadline (`Sound.held`).
-/

import Fabrika.Control.Lease

namespace Fabrika.Control.Lease

/-! ## Coverage -/

variable {now : Nat} {row row' : Option Row} {holder : Holder} {p : Party}

theorem local_renew (time : Nat) : time + localTtlMs + leaseRenewMs = time + leaseTtlMs := by
  have : localTtlMs + leaseRenewMs = leaseTtlMs := by decide
  omega

/-- The row names the holder until `due`, or `due` has passed. -/
def Covered (now : Nat) (row : Option Row) (holder : Holder) (due : Nat) : Prop :=
  (∃ expiresAt, row = some ⟨holder, expiresAt⟩ ∧ due ≤ expiresAt) ∨ due ≤ now

/-- What a party can make of the row. -/
inductive RowMove (now : Nat) (holder : Holder) : Option Row → Option Row → Prop
  | same {row : Option Row} : RowMove now holder row row
  | taken {row : Option Row} {bound : Nat} : bound ≤ now → (∀ held, row = some held → held.expiresAt ≤ bound) →
      RowMove now holder row (some ⟨holder, bound + leaseTtlMs⟩)
  | renewed {expiresAt bound : Nat} : bound ≤ now → bound < expiresAt →
      RowMove now holder (some ⟨holder, expiresAt⟩) (some ⟨holder, bound + leaseTtlMs⟩)
  | freed {expiresAt : Nat} : RowMove now holder (some ⟨holder, expiresAt⟩) none

variable {due bound acquiredAt : Nat} {w : World}

theorem Covered.tick (h : Covered now row holder due) (ms : Nat) : Covered (now + ms) row holder due := by
  rcases h with h | h
  · exact .inl h
  · exact .inr (by omega)

/-- Nothing another party does uncovers a holder. -/
theorem RowMove.covered {other : Holder} (h : RowMove now other row row') (hne : holder ≠ other)
    (hc : Covered now row holder due) : Covered now row' holder due := by
  rcases hc with ⟨expiresAt, hrow, hdue⟩ | hdue
  · cases h with
    | same => exact .inl ⟨expiresAt, hrow, hdue⟩
    | taken hbound hexpired =>
      have := hexpired _ hrow
      dsimp only at this
      exact .inr (by omega)
    | renewed => exact absurd (congrArg Row.holder (Option.some.inj hrow)).symm hne
    | freed => exact absurd (congrArg Row.holder (Option.some.inj hrow)).symm hne
  · exact .inr hdue

theorem acquire_move (hbound : bound ≤ now) (row : Option Row) :
    RowMove now holder row (acquire row holder leaseTtlMs bound).1 := by
  unfold acquire
  split
  · exact .taken hbound (fun _ e => nomatch e)
  · next held =>
    split
    · next hexpired =>
      refine .taken hbound (fun held' e => ?_)
      cases e
      exact hexpired
    · exact .same

theorem acquire_changed (h : (acquire row holder leaseTtlMs bound).2 = true) :
    (acquire row holder leaseTtlMs bound).1 = some ⟨holder, bound + leaseTtlMs⟩ := by
  unfold acquire at h ⊢
  split
  · rfl
  · split
    · rfl
    · simp_all

theorem renew_move (hbound : bound ≤ now) (row : Option Row) :
    RowMove now holder row (renew row holder leaseTtlMs bound).1 := by
  unfold renew
  split
  · exact .same
  · next held =>
    split
    · next hmine =>
      obtain ⟨rfl, hlive⟩ := hmine
      exact .renewed hbound hlive
    · exact .same

theorem renew_changed (h : (renew row holder leaseTtlMs bound).2 = true) :
    (renew row holder leaseTtlMs bound).1 = some ⟨holder, bound + leaseTtlMs⟩ := by
  unfold renew at h ⊢
  split
  · cases h
  · split
    · next hmine =>
      obtain ⟨rfl, -⟩ := hmine
      rfl
    · simp_all

theorem release_move (row : Option Row) : RowMove now holder row (release row holder) := by
  unfold release
  cases row with
  | none => exact .same
  | some held =>
    by_cases hmine : held.holder = holder
    · rw [Option.filter_some_neg (by simp [hmine])]
      subst hmine
      exact .freed
    · rw [Option.filter_some_pos (by simp [hmine])]
      exact .same

/-! ## What holds of a party -/

/-- The clock readings a call made. -/
def Call.ReadIn (start now : Nat) : Call → Prop
  | .sent bound => start ≤ bound ∧ bound ≤ now
  | _ => start ≤ now

structure Sound (now : Nat) (row : Option Row) (holder : Holder) (p : Party) : Prop where
  acquiring : ∀ acquiredAt call, p.acquisition = some (acquiredAt, call) → call.ReadIn acquiredAt now
  renewing : ∀ started call, p.renewal = some (started, call) → call.ReadIn started now
  /-- Acquired, and not answered yet. -/
  acquired : ∀ acquiredAt, p.acquisition = some (acquiredAt, .executed true) → p.settled = false →
    Covered now row holder (acquiredAt + leaseTtlMs)
  /-- An acting lease. -/
  held : ∀ lease, p.lease = some lease → lease.aborted = false → Covered now row holder (lease.deadline + leaseRenewMs)
  /-- Renewed, and not answered yet. -/
  renewed : ∀ started lease, p.renewal = some (started, .executed true) → p.lease = some lease → lease.aborted = false →
    Covered now row holder (started + leaseTtlMs)
  /-- The statement of a renewal in flight would not shorten the row. -/
  lengthens : ∀ started bound expiresAt, p.renewal = some (started, .sent bound) → row = some ⟨holder, expiresAt⟩ →
    expiresAt ≤ bound + leaseTtlMs
  bounded : ∀ expiresAt, row = some ⟨holder, expiresAt⟩ → expiresAt ≤ now + leaseTtlMs
  /-- The row names a holder only behind its acquisition. -/
  named : ∀ expiresAt, row = some ⟨holder, expiresAt⟩ → ∃ acquiredAt, p.acquisition = some (acquiredAt, .executed true)
  leased : p.lease ≠ none → p.settled = true ∧ ∃ acquiredAt, p.acquisition = some (acquiredAt, .executed true)
  unleased : p.lease = none → p.renewal = none
  leaving : 0 < p.releasing + p.deletes → ∃ lease, p.lease = some lease ∧ lease.aborted = true

theorem sound_idle : Sound now none holder .idle := by
  constructor <;> simp [Party.idle]

theorem Call.ReadIn.tick {start : Nat} {call : Call} (h : call.ReadIn start now) (ms : Nat) : call.ReadIn start (now + ms) := by
  cases call <;> simp only [Call.ReadIn] at h ⊢ <;> omega

theorem Sound.tick (h : Sound now row holder p) (ms : Nat) : Sound (now + ms) row holder p where
  acquiring a c e := (h.acquiring a c e).tick ms
  renewing s c e := (h.renewing s c e).tick ms
  acquired a e e' := (h.acquired a e e').tick ms
  held l e e' := (h.held l e e').tick ms
  renewed s l e e' e'' := (h.renewed s l e e' e'').tick ms
  lengthens := h.lengthens
  bounded e he := by
    have := h.bounded e he
    omega
  named := h.named
  leased := h.leased
  unleased := h.unleased
  leaving := h.leaving

/-- A party keeps what it has whatever another party does to the row. -/
theorem Sound.other {other : Holder} (h : Sound now row holder p) (hmove : RowMove now other row row') (hne : holder ≠ other) :
    Sound now row' holder p := by
  have hrow : ∀ {expiresAt : Nat}, row' = some ⟨holder, expiresAt⟩ → row = some ⟨holder, expiresAt⟩ := by
    intro expiresAt e
    cases hmove with
    | same => exact e
    | taken => exact absurd (congrArg Row.holder (Option.some.inj e)).symm hne
    | renewed => exact absurd (congrArg Row.holder (Option.some.inj e)).symm hne
    | freed => cases e
  exact
    { acquiring := h.acquiring
      renewing := h.renewing
      acquired := fun a e e' => hmove.covered hne (h.acquired a e e')
      held := fun l e e' => hmove.covered hne (h.held l e e')
      renewed := fun s l e e' e'' => hmove.covered hne (h.renewed s l e e' e'')
      lengthens := fun s b e hs he => h.lengthens s b e hs (hrow he)
      bounded := fun e he => h.bounded e (hrow he)
      named := fun e he => h.named e (hrow he)
      leased := h.leased
      unleased := h.unleased
      leaving := h.leaving }

/-! ## What a party does itself -/

/-- Only the lease changes: it is the one that was, or aborted. -/
theorem Sound.leases {p' : Party} (h : Sound now row holder p) (hacquisition : p'.acquisition = p.acquisition)
    (hsettled : p'.settled = p.settled) (hrenewal : p'.renewal = p.renewal) (hnone : p'.lease = none ↔ p.lease = none)
    (hlease : ∀ lease', p'.lease = some lease' → lease'.aborted = false →
      ∃ lease, p.lease = some lease ∧ lease.aborted = false ∧ lease'.deadline = lease.deadline)
    (hleaving : 0 < p'.releasing + p'.deletes → ∃ lease, p'.lease = some lease ∧ lease.aborted = true) :
    Sound now row holder p' where
  acquiring := hacquisition ▸ h.acquiring
  renewing := hrenewal ▸ h.renewing
  acquired := by
    rw [hacquisition, hsettled]
    exact h.acquired
  held lease' e e' := by
    obtain ⟨lease, hl, ha, hd⟩ := hlease lease' e e'
    exact hd ▸ h.held lease hl ha
  renewed started lease' hr e e' := by
    obtain ⟨lease, hl, ha, -⟩ := hlease lease' e e'
    exact h.renewed started lease (hrenewal ▸ hr) hl ha
  lengthens := hrenewal ▸ h.lengthens
  bounded := h.bounded
  named := hacquisition ▸ h.named
  leased hne := by
    rw [hacquisition, hsettled]
    exact h.leased (fun e => hne (hnone.mpr e))
  unleased e := hrenewal ▸ h.unleased (hnone.mp e)
  leaving := hleaving

variable {lease : HeldLease}

/-- The lease is abandoned, whatever else of it changes. -/
theorem Sound.aborts {lease' : HeldLease} (h : Sound now row holder p) (hlease : p.lease = some lease)
    (haborted : lease'.aborted = true) : Sound now row holder { p with lease := some lease' } := by
  refine h.leases rfl rfl rfl (by simp [hlease]) ?_ (fun _ => ⟨lease', rfl, haborted⟩)
  intro l e e'
  cases e
  cases haborted.symm.trans e'

/-- The renewal is answered or given up; nothing is in flight any more. -/
theorem Sound.answered {lease' : HeldLease} (h : Sound now row holder p) (hlease : p.lease = some lease)
    (haborted : lease.aborted = true → lease'.aborted = true)
    (hheld : lease'.aborted = false → Covered now row holder (lease'.deadline + leaseRenewMs)) :
    Sound now row holder { p with renewal := none, lease := some lease' } where
  acquiring := h.acquiring
  renewing _ _ e := nomatch e
  acquired := h.acquired
  held l e e' := by
    cases e
    exact hheld e'
  renewed _ _ e := nomatch e
  lengthens _ _ _ e := nomatch e
  bounded := h.bounded
  named := h.named
  leased _ := h.leased (by simp [hlease])
  unleased e := nomatch e
  leaving hpos := by
    obtain ⟨l, hl, ha⟩ := h.leaving hpos
    cases hlease.symm.trans hl
    exact ⟨lease', rfl, haborted ha⟩

section
variable (h : Sound now row holder p)
include h

theorem Sound.acquireSent (hacquisition : p.acquisition = some (acquiredAt, .made)) :
    Sound now row holder { p with acquisition := some (acquiredAt, .sent now) } where
  acquiring a c e := by
    cases e
    exact ⟨h.acquiring _ _ hacquisition, Nat.le_refl _⟩
  renewing := h.renewing
  acquired _ e := nomatch e
  held := h.held
  renewed := h.renewed
  lengthens := h.lengthens
  bounded := h.bounded
  named e he := by
    obtain ⟨a, ha⟩ := h.named e he
    cases hacquisition.symm.trans ha
  leased hne := by
    obtain ⟨-, a, ha⟩ := h.leased hne
    cases hacquisition.symm.trans ha
  unleased := h.unleased
  leaving := h.leaving

theorem Sound.acquireStarts (hacquisition : p.acquisition = none) :
    Sound now row holder { p with acquisition := some (now, .made) } where
  acquiring a c e := by
    cases e
    exact Nat.le_refl _
  renewing := h.renewing
  acquired _ e := nomatch e
  held := h.held
  renewed := h.renewed
  lengthens := h.lengthens
  bounded := h.bounded
  named e he := by
    obtain ⟨a, ha⟩ := h.named e he
    cases hacquisition.symm.trans ha
  leased hne := by
    obtain ⟨-, a, ha⟩ := h.leased hne
    cases hacquisition.symm.trans ha
  unleased := h.unleased
  leaving := h.leaving

theorem Sound.acquireExecuted (hacquisition : p.acquisition = some (acquiredAt, .sent bound)) :
    Sound now (acquire row holder leaseTtlMs bound).1 holder
      { p with acquisition := some (acquiredAt, .executed (acquire row holder leaseTtlMs bound).2) } := by
  obtain ⟨hstart, hbound⟩ : acquiredAt ≤ bound ∧ bound ≤ now := h.acquiring _ _ hacquisition
  have hnotmine : ∀ e, row ≠ some ⟨holder, e⟩ := by
    intro e he
    obtain ⟨a, ha⟩ := h.named e he
    cases hacquisition.symm.trans ha
  have hnolease : p.lease = none := by
    by_contra hne
    obtain ⟨-, a, ha⟩ := h.leased hne
    cases hacquisition.symm.trans ha
  have hmine : ∀ e, (acquire row holder leaseTtlMs bound).1 = some ⟨holder, e⟩ →
      (acquire row holder leaseTtlMs bound).2 = true ∧ e = bound + leaseTtlMs := by
    intro e he
    cases hchanged : (acquire row holder leaseTtlMs bound).2 with
    | true =>
      rw [acquire_changed hchanged] at he
      cases he
      exact ⟨rfl, rfl⟩
    | false =>
      refine absurd ?_ (hnotmine e)
      rw [← he]
      unfold acquire at hchanged ⊢
      split
      · cases hchanged
      · split
        · simp_all
        · rfl
  exact
    { acquiring := fun a c e => by
        cases e
        show acquiredAt ≤ now
        omega
      renewing := h.renewing
      acquired := fun a e _ => by
        obtain ⟨rfl, hcall⟩ := Prod.mk.inj (Option.some.inj e)
        exact .inl ⟨_, acquire_changed (Call.executed.inj hcall), by omega⟩
      held := fun l e => by simp [hnolease] at e
      renewed := fun s l _ e => by simp [hnolease] at e
      lengthens := fun s b e hs => by simp [h.unleased hnolease] at hs
      bounded := fun e he => by
        obtain ⟨-, rfl⟩ := hmine e he
        omega
      named := fun e he => by
        obtain ⟨hchanged, -⟩ := hmine e he
        exact ⟨acquiredAt, by rw [hchanged]⟩
      leased := fun hne => absurd hnolease hne
      unleased := h.unleased
      leaving := h.leaving }

theorem Sound.acquireAnswered (hacquisition : p.acquisition = some (acquiredAt, .executed true)) (hsettled : p.settled = false) :
    Sound now row holder { p with settled := true, lease := some ⟨acquiredAt + localTtlMs, false, true⟩ } := by
  have hnolease : p.lease = none := by
    by_contra hne
    cases hsettled.symm.trans (h.leased hne).1
  have hcovered := h.acquired acquiredAt hacquisition hsettled
  exact
    { acquiring := h.acquiring
      renewing := h.renewing
      acquired := fun _ _ e => nomatch e
      held := fun l e _ => by
        cases e
        rw [local_renew]
        exact hcovered
      renewed := fun s l e => by simp [h.unleased hnolease] at e
      lengthens := h.lengthens
      bounded := h.bounded
      named := h.named
      leased := fun _ => ⟨rfl, acquiredAt, hacquisition⟩
      unleased := fun e => nomatch e
      leaving := fun hpos => by
        obtain ⟨l, hl, -⟩ := h.leaving hpos
        cases hnolease.symm.trans hl }

theorem Sound.settles : Sound now row holder { p with settled := true } where
  acquiring := h.acquiring
  renewing := h.renewing
  acquired _ _ e := nomatch e
  held := h.held
  renewed := h.renewed
  lengthens := h.lengthens
  bounded := h.bounded
  named := h.named
  leased hne := ⟨rfl, (h.leased hne).2⟩
  unleased := h.unleased
  leaving := h.leaving

theorem Sound.renewStarts (hlease : p.lease = some lease) : Sound now row holder { p with renewal := some (now, .made) } where
  acquiring := h.acquiring
  renewing s c e := by
    cases e
    exact Nat.le_refl _
  acquired := h.acquired
  held := h.held
  renewed _ _ e := nomatch e
  lengthens _ _ _ e := nomatch e
  bounded := h.bounded
  named := h.named
  leased := h.leased
  unleased e := by
    cases hlease.symm.trans e
  leaving := h.leaving

end

theorem Sound.renewSent {started : Nat} (h : Sound now row holder p) (hrenewal : p.renewal = some (started, .made)) :
    Sound now row holder { p with renewal := some (started, .sent now) } where
  acquiring := h.acquiring
  renewing s c e := by
    cases e
    exact ⟨h.renewing _ _ hrenewal, Nat.le_refl _⟩
  acquired := h.acquired
  held := h.held
  renewed _ _ e := nomatch e
  lengthens s b e hs he := by
    cases hs
    exact h.bounded e he
  bounded := h.bounded
  named := h.named
  leased := h.leased
  unleased e := by
    cases (h.unleased e).symm.trans hrenewal
  leaving := h.leaving

/-- A renewal's statement does not shorten what is covered. -/
theorem renew_covered (hlengthens : ∀ expiresAt, row = some ⟨holder, expiresAt⟩ → expiresAt ≤ bound + leaseTtlMs)
    (h : Covered now row holder due) : Covered now (renew row holder leaseTtlMs bound).1 holder due := by
  rcases h with ⟨expiresAt, rfl, hdue⟩ | hdue
  · have := hlengthens expiresAt rfl
    left
    simp only [renew]
    split
    · exact ⟨_, rfl, by omega⟩
    · exact ⟨_, rfl, hdue⟩
  · exact .inr hdue

theorem Sound.renewExecuted {started : Nat} (h : Sound now row holder p) (hrenewal : p.renewal = some (started, .sent bound)) :
    Sound now (renew row holder leaseTtlMs bound).1 holder
      { p with renewal := some (started, .executed (renew row holder leaseTtlMs bound).2) } := by
  obtain ⟨hstart, hbound⟩ : started ≤ bound ∧ bound ≤ now := h.renewing _ _ hrenewal
  have hlengthens : ∀ e, row = some ⟨holder, e⟩ → e ≤ bound + leaseTtlMs := fun e => h.lengthens _ _ e hrenewal
  have hmine : ∀ e, (renew row holder leaseTtlMs bound).1 = some ⟨holder, e⟩ →
      (∃ e', row = some ⟨holder, e'⟩) ∧ e ≤ bound + leaseTtlMs := by
    intro e he
    unfold renew at he
    split at he
    · cases he
    · next held =>
      split at he
      · next hheld =>
        cases he
        exact ⟨⟨held.expiresAt, rfl⟩, Nat.le_refl _⟩
      · cases he
        exact ⟨⟨e, rfl⟩, hlengthens e rfl⟩
  exact
    { acquiring := h.acquiring
      renewing := fun s c e => by
        cases e
        show started ≤ now
        omega
      acquired := fun a e e' => renew_covered hlengthens (h.acquired a e e')
      held := fun l e e' => renew_covered hlengthens (h.held l e e')
      renewed := fun s l e _ _ => by
        obtain ⟨rfl, hcall⟩ := Prod.mk.inj (Option.some.inj e)
        exact .inl ⟨_, renew_changed (Call.executed.inj hcall), by omega⟩
      lengthens := fun s b e hs => nomatch hs
      bounded := fun e he => by
        have := (hmine e he).2
        omega
      named := fun e he => by
        obtain ⟨⟨e', hrow⟩, -⟩ := hmine e he
        exact h.named e' hrow
      leased := h.leased
      unleased := fun e => by
        cases (h.unleased e).symm.trans hrenewal
      leaving := h.leaving }

theorem Sound.releaseExecuted (h : Sound now row holder p) (hdeletes : 0 < p.deletes) :
    Sound now (release row holder) holder { p with deletes := p.deletes - 1 } := by
  obtain ⟨lease, hlease, haborted⟩ := h.leaving (by omega)
  have hgone : ∀ e, release row holder ≠ some ⟨holder, e⟩ := by
    intro e he
    simp [release, Option.filter_eq_some_iff] at he
  have hnever : ∀ l, p.lease = some l → l.aborted ≠ false := by
    intro l hl e
    cases hlease.symm.trans hl
    cases haborted.symm.trans e
  exact
    { acquiring := h.acquiring
      renewing := h.renewing
      acquired := fun a _ e => by
        cases e.symm.trans (h.leased (by simp [hlease])).1
      held := fun l e e' => absurd e' (hnever l e)
      renewed := fun s l _ e e' => absurd e' (hnever l e)
      lengthens := fun s b e _ he => absurd he (hgone e)
      bounded := fun e he => absurd he (hgone e)
      named := fun e he => absurd he (hgone e)
      leased := h.leased
      unleased := h.unleased
      leaving := fun _ => ⟨lease, hlease, haborted⟩ }

theorem Sound.act (h : Sound now row holder p) (action : Action) :
    Sound now (act now row holder p action).2 holder (act now row holder p action).1 := by
  cases action with
  | acquireLease =>
    simp only [Lease.act]
    split
    · next hnone => exact h.acquireStarts hnone
    · exact h
  | acquireSent =>
    simp only [Lease.act]
    split
    · next hmade => exact h.acquireSent hmade
    · exact h
  | acquireExecuted =>
    simp only [Lease.act]
    split
    · next hsent => exact h.acquireExecuted hsent
    · exact h
  | acquireAnswered =>
    simp only [Lease.act]
    split
    · next hexecuted =>
      split
      · exact h
      next hopen =>
      split
      · next hchanged =>
        subst hchanged
        exact h.acquireAnswered hexecuted (by simpa using hopen)
      · exact h.settles
    · exact h
  | acquireFailed => exact h.settles
  | renewStarted =>
    simp only [Lease.act]
    split
    · next lease hlease hnone =>
      split
      · split
        · exact h.aborts hlease rfl
        · exact h.renewStarts hlease
      · exact h
    · exact h
  | renewSent =>
    simp only [Lease.act]
    split
    · next hmade => exact h.renewSent hmade
    · exact h
  | renewExecuted =>
    simp only [Lease.act]
    split
    · next hsent => exact h.renewExecuted hsent
    · exact h
  | renewAnswered =>
    simp only [Lease.act]
    split
    · next lease started changed hlease hexecuted =>
      split
      · split
        · next hchanged =>
          subst hchanged
          refine h.answered hlease (fun e => e) (fun e => ?_)
          rw [local_renew]
          exact h.renewed started lease hexecuted hlease e
        · exact h.answered hlease (fun _ => rfl) (fun e => nomatch e)
      · exact h
    · exact h
  | renewFailed =>
    simp only [Lease.act]
    split
    · next lease renewal hlease hsome =>
      split
      · exact h.aborts hlease rfl
      · exact h
    · exact h
  | waitFailed =>
    simp only [Lease.act]
    split
    · next lease hlease hnone =>
      split
      · exact h.aborts hlease rfl
      · exact h
    · exact h
  | assertHeld =>
    simp only [Lease.act]
    cases hlease : p.lease with
    | none =>
      refine h.leases rfl rfl rfl (by simp [hlease]) (fun l e => nomatch e) (fun hpos => ?_)
      obtain ⟨l, hl, -⟩ := h.leaving hpos
      cases hlease.symm.trans hl
    | some lease =>
      simp only [Option.map_some, HeldLease.assertHeld]
      split
      · exact h.aborts hlease rfl
      · rw [← hlease]
        exact h
  | abandon =>
    simp only [Lease.act]
    cases hlease : p.lease with
    | none =>
      refine h.leases rfl rfl rfl (by simp [hlease]) (fun l e => nomatch e) (fun hpos => ?_)
      obtain ⟨l, hl, -⟩ := h.leaving hpos
      cases hlease.symm.trans hl
    | some lease => exact h.aborts hlease rfl
  | release =>
    simp only [Lease.act]
    split
    · next lease hlease =>
      refine h.leases rfl rfl rfl (by simp [hlease]) ?_ (fun _ => ⟨lease.abandon, rfl, rfl⟩)
      intro l e e'
      cases e
      cases e'
    · exact h
  | releaseSent =>
    simp only [Lease.act]
    split
    · next lease hlease =>
      split
      · next hready =>
        refine h.leases rfl rfl rfl Iff.rfl (fun l e e' => ⟨l, e, e', rfl⟩) (fun _ => ?_)
        exact h.leaving (by omega)
      · exact h
    · exact h
  | releaseExecuted =>
    simp only [Lease.act]
    split
    · next hpos => exact h.releaseExecuted hpos
    · exact h

/-! ## Runs -/

theorem Sound.moves (h : Sound now row holder p) (action : Action) :
    RowMove now holder row (Lease.act now row holder p action).2 := by
  cases action with
  | acquireExecuted =>
    simp only [Lease.act]
    split
    · next hsent => exact acquire_move (h.acquiring _ _ hsent).2 row
    · exact .same
  | renewExecuted =>
    simp only [Lease.act]
    split
    · next hsent => exact renew_move (h.renewing _ _ hsent).2 row
    · exact .same
  | releaseExecuted =>
    simp only [Lease.act]
    split
    · exact release_move row
    · exact .same
  | _ =>
    simp only [Lease.act]
    repeat' split
    all_goals exact .same

def World.Inv (w : World) : Prop := ∀ holder, Sound w.now w.row holder (w.party holder)

theorem inv_step (h : w.Inv) (event : Event) : (w.step event).Inv := by
  cases event with
  | tick ms => exact fun holder => (h holder).tick ms
  | act actor action =>
    intro holder
    simp only [World.step]
    by_cases hactor : holder = actor
    · subst hactor
      rw [Function.update_self]
      exact (h holder).act action
    · rw [Function.update_of_ne hactor]
      exact (h holder).other ((h actor).moves action) hactor

theorem inv_after (h : w.Inv) (events : List Event) : (w.after events).Inv := by
  induction events generalizing w with
  | nil => exact h
  | cons event rest ih => exact ih (inv_step h event)

theorem passes_iff :
    w.passes holder = true ↔ ∃ lease, (w.party holder).lease = some lease ∧ lease.aborted = false ∧ w.now < lease.deadline := by
  unfold World.passes HeldLease.assertHeld
  cases (w.party holder).lease with
  | none => simp
  | some lease =>
    by_cases hdue : lease.deadline ≤ w.now
    · simp [hdue, HeldLease.abandon]
    · simp [hdue, Nat.lt_of_not_le hdue]

/-- An acting holder is the one the row names, past its local deadline. -/
theorem World.Inv.named {w : World} {holder : Holder} (h : w.Inv) (hpasses : w.passes holder = true) :
    ∃ lease expiresAt, (w.party holder).lease = some lease ∧ w.row = some ⟨holder, expiresAt⟩ ∧
      lease.deadline + leaseRenewMs ≤ expiresAt := by
  obtain ⟨lease, hlease, haborted, hnow⟩ := (passes_iff).mp hpasses
  rcases (h holder).held lease hlease haborted with ⟨expiresAt, hrow, hdue⟩ | hdue
  · exact ⟨lease, expiresAt, hlease, hrow, hdue⟩
  · omega

/-! ## Giving up -/

/-- The party ends its lease: it abandons or releases it, a renewal fails, or comes too late to start. -/
inductive Party.GivesUp (now : Nat) (p : Party) (lease : HeldLease) : Action → Prop
  | abandons : GivesUp now p lease .abandon
  | releases : GivesUp now p lease .release
  | late : lease.renewing = true → p.renewal = none → lease.deadline ≤ now → GivesUp now p lease .renewStarted
  | unchanged {started : Nat} : lease.renewing = true → p.renewal = some (started, .executed false) →
      GivesUp now p lease .renewAnswered
  | fails {renewal : Nat × Call} : lease.renewing = true → p.renewal = some renewal → GivesUp now p lease .renewFailed
  | throws : lease.renewing = true → p.renewal = none → GivesUp now p lease .waitFailed

def Party.Aborted (p : Party) : Prop := ∃ lease, p.lease = some lease ∧ lease.aborted = true

theorem Party.GivesUp.aborted {action : Action} (h : p.GivesUp now lease action) (hlease : p.lease = some lease) :
    (Lease.act now row holder p action).1.Aborted := by
  cases h with
  | abandons => exact ⟨lease.abandon, by simp [Lease.act, hlease], rfl⟩
  | releases => exact ⟨lease.abandon, by simp [Lease.act, hlease], rfl⟩
  | late hrenewing hnone hdue => exact ⟨lease.ended, by simp [Lease.act, hlease, hnone, hrenewing, hdue], rfl⟩
  | unchanged hrenewing hexecuted => exact ⟨lease.ended, by simp [Lease.act, hlease, hexecuted, hrenewing], rfl⟩
  | fails hrenewing hsome => exact ⟨lease.ended, by simp [Lease.act, hlease, hsome, hrenewing], rfl⟩
  | throws hrenewing hnone => exact ⟨lease.ended, by simp [Lease.act, hlease, hnone, hrenewing], rfl⟩

/-- An aborted lease stays aborted, whatever its party does. -/
theorem Party.Aborted.act (hsound : Sound now row holder p) (h : p.Aborted) (action : Action) :
    (Lease.act now row holder p action).1.Aborted := by
  obtain ⟨lease, hlease, haborted⟩ := h
  have hsettled := (hsound.leased (by simp [hlease])).1
  cases action with
  | acquireAnswered =>
    simp only [Lease.act, hsettled, if_true]
    split
    · exact ⟨lease, hlease, haborted⟩
    · exact ⟨lease, hlease, haborted⟩
  | renewStarted =>
    simp only [Lease.act, hlease]
    repeat' split
    all_goals first | exact ⟨lease, hlease, haborted⟩ | exact ⟨lease, rfl, haborted⟩ | exact ⟨_, rfl, rfl⟩
  | renewAnswered =>
    simp only [Lease.act, hlease]
    split
    · split
      · split
        · next hsome _ _ _ =>
          cases hsome
          exact ⟨_, rfl, haborted⟩
        · exact ⟨_, rfl, rfl⟩
      · exact ⟨lease, hlease, haborted⟩
    · exact ⟨lease, hlease, haborted⟩
  | renewFailed =>
    simp only [Lease.act, hlease]
    repeat' split
    all_goals first | exact ⟨lease, hlease, haborted⟩ | exact ⟨_, rfl, rfl⟩
  | waitFailed =>
    simp only [Lease.act, hlease]
    repeat' split
    all_goals first | exact ⟨lease, hlease, haborted⟩ | exact ⟨_, rfl, rfl⟩
  | assertHeld =>
    simp only [Lease.act, hlease, Option.map_some, HeldLease.assertHeld]
    split
    · exact ⟨_, rfl, rfl⟩
    · exact ⟨lease, rfl, haborted⟩
  | abandon => exact ⟨lease.abandon, by simp [Lease.act, hlease], rfl⟩
  | release => exact ⟨lease.abandon, by simp [Lease.act, hlease], rfl⟩
  | _ =>
    simp only [Lease.act]
    repeat' split
    all_goals exact ⟨lease, hlease, haborted⟩

theorem aborted_after (hinv : w.Inv) (h : (w.party holder).Aborted) (events : List Event) :
    ((w.after events).party holder).Aborted := by
  induction events generalizing w with
  | nil => exact h
  | cons event rest ih =>
    refine ih (inv_step hinv event) ?_
    cases event with
    | tick ms => exact h
    | act actor action =>
      simp only [World.step]
      by_cases hactor : holder = actor
      · subst hactor
        rw [Function.update_self]
        exact h.act (hinv holder) action
      · rw [Function.update_of_ne hactor]
        exact h

/-- A lease has one acting holder: what holds in every state of every run. -/
structure OneHolder (w : World) : Prop where
  unique : ∀ a b, w.passes a = true → w.passes b = true → a = b
  stored : ∀ holder, w.passes holder = true → ∃ lease expiresAt, (w.party holder).lease = some lease ∧
    w.row = some ⟨holder, expiresAt⟩ ∧ lease.deadline + 30000 ≤ expiresAt
  /-- Only an acquisition ever takes the row of another holder. -/
  superseded : ∀ holder action held, action ≠ .acquireExecuted → w.row = some held → held.holder ≠ holder →
    (w.step (.act holder action)).row = some held
  ended : ∀ holder lease action, (w.party holder).lease = some lease → (w.party holder).GivesUp w.now lease action →
    ∀ later, ((w.step (.act holder action)).after later).passes holder = false

theorem superseded_row {action : Action} {held : Row} (haction : action ≠ .acquireExecuted) (hrow : row = some held)
    (hother : held.holder ≠ holder) : (Lease.act now row holder p action).2 = some held := by
  subst hrow
  cases action with
  | acquireExecuted => exact absurd rfl haction
  | renewExecuted =>
    simp only [Lease.act]
    split
    · simp [renew, hother]
    · rfl
  | releaseExecuted =>
    simp only [Lease.act]
    split
    · simp [Lease.release, hother]
    · rfl
  | _ =>
    simp only [Lease.act]
    repeat' split
    all_goals rfl

theorem one_acting_holder (now : Nat) (events : List Event) : OneHolder ((World.start now).after events) := by
  have hinv : ((World.start now).after events).Inv := inv_after (fun _ => sound_idle) events
  generalize (World.start now).after events = w at hinv
  refine ⟨?_, fun holder => hinv.named, ?_, ?_⟩
  · intro a b ha hb
    obtain ⟨_, _, -, hrow, -⟩ := hinv.named ha
    obtain ⟨_, _, -, hrow', -⟩ := hinv.named hb
    exact congrArg Row.holder (Option.some.inj (hrow.symm.trans hrow'))
  · exact fun holder action held haction hrow hother => superseded_row haction hrow hother
  · intro holder lease action hlease hgives later
    have haborted : ((w.step (.act holder action)).party holder).Aborted := by
      simp only [World.step, Function.update_self]
      exact hgives.aborted hlease
    obtain ⟨lease', hlease', haborted'⟩ := aborted_after (inv_step hinv _) haborted later
    rw [Bool.eq_false_iff]
    intro hpasses
    obtain ⟨lease'', hlease'', hheld, -⟩ := (passes_iff).mp hpasses
    cases hlease'.symm.trans hlease''
    cases haborted'.symm.trans hheld

end Fabrika.Control.Lease
