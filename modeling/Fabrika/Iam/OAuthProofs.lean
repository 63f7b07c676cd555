/-
  Fabrika.Iam.OAuthProofs — what holds over every run of code exchanges, rotations, replays,
  revocations and deletions, whatever the order of their steps.

  Proved:
  (1) One family (`one_family`): no code and no refresh token has two access tokens signed for it,
      and a grant never has two unspent refresh tokens, or one beside an unspent code or an
      exchange under way.
  (2) Revocation (`ended_for_good`): once a grant is revoked, disconnected or deleted with its
      session, no exchange that has not read it for the second time gets a token. One that has is
      not stopped: `mintForGrant` signs behind that read. A replay gets there
      (`replay_ends_family`): a spent code or refresh token presented again is looked up and its
      grant revoked, unless its row is deleted first.
  (3) Every signed token is rightful (`minted_rightly`): presented as consented to, with no more
      than the consent, the live permissions and the scopes allow, and no longer than they last
      (`authorityDeadline_exact`).
-/

import Fabrika.Iam.NarrowProofs
import Fabrika.Iam.OAuth
import Fabrika.Lib.Custody
import Mathlib.Data.Option.Basic

namespace Fabrika.Iam.OAuth

open Fabrika.AuthCore Fabrika.Iam.Narrow Fabrika.Lib

variable {deps : Deps} {w w' : World}

/-! ## What a step does -/

def Job.exchange : Job → Option Exchange
  | .spent x | .authorized x _ _ _ | .signing x _ _ _ | .inserting x _ => some x
  | _ => none

/-- A grant that some row names. -/
def World.Names (w : World) (grantId : Nat) : Prop :=
  (∃ token row, w.codes token = some row ∧ row.grantId = grantId) ∨
  (∃ token row, w.refreshTokens token = some row ∧ row.grantId = grantId) ∨ (w.grants grantId).isSome

/-- A job outside every exchange, whose revocation follows some row. -/
def Job.Quiet (w : World) (job : Job) : Prop := job.exchange = none ∧ ∀ grantId, job = .revoking grantId → w.Names grantId

/-- No row is new, and a grant's only news is its revocation; a new job is no exchange. -/
structure Quiet (w w' : World) : Prop where
  grants : ∀ id row, w'.grants id = some row → ∃ before, w.grants id = some before ∧
    (row = before ∨ row = { before with revoked := true })
  codes : ∀ token row, w'.codes token = some row → w.codes token = some row
  refreshTokens : ∀ token row, w'.refreshTokens token = some row → w.refreshTokens token = some row
  jobs : ∀ n job, w'.jobs n = some job → w.jobs n = some job ∨ job.Quiet w
  nextId : w.nextId ≤ w'.nextId
  consents : w'.consents = w.consents
  minted : w'.minted = w.minted

inductive Changes (deps : Deps) (w : World) : World → Prop
  | created (grant : Grant) (redirectUri challenge : String) (now : Nat) :
      Changes deps w (w.act deps (.createGrant grant redirectUri challenge now))
  | spendsCode {token : Nat} {row : Code} {x : Exchange} (hrow : w.codes token = some row) (hused : row.used = false)
      (htoken : x.token = token) (hspent : ∃ verifier redirectUri, x.spent = .code row verifier redirectUri) :
      Changes deps w ({ w with codes := Function.update w.codes token (some { row with used := true }) }.addJob (.spent x))
  | spendsRefreshToken {token : Nat} {row : RefreshToken} {x : Exchange} (hrow : w.refreshTokens token = some row)
      (hused : row.used = false) (htoken : x.token = token) (hspent : x.spent = .refreshToken row) :
      Changes deps w ({ w with refreshTokens := Function.update w.refreshTokens token (some { row with used := true })
        }.addJob (.spent x))
  | authorizes {n : Nat} {x : Exchange} {grant : Grant} {read : Reads} {authority : Authority} (hjob : w.jobs n = some (.spent x))
      (hgrant : w.grants x.spent.grantId = some grant) (haccepts : x.accepts deps grant = true)
      (hauthority : grantAuthority read grant x.now = some authority) :
      Changes deps w (w.setJob n (some (.authorized x grant read authority)))
  | readsAgain {n : Nat} {x : Exchange} {grant current : Grant} {read : Reads} {authority : Authority}
      (hjob : w.jobs n = some (.authorized x grant read authority)) (hgrant : w.grants x.spent.grantId = some current)
      (hlive : current.revoked = false) :
      Changes deps w (w.setJob n (some (.signing x grant read authority)))
  | mints {n : Nat} {x : Exchange} {grant : Grant} {read : Reads} {authority : Authority}
      (hjob : w.jobs n = some (.signing x grant read authority)) :
      Changes deps w { w.setJob n (if x.refreshes then some (.inserting x grant) else none) with
        minted := w.minted ++ [⟨x, read, accessToken x grant authority⟩] }
  | inserts {n : Nat} {x : Exchange} {grant : Grant} (hjob : w.jobs n = some (.inserting x grant)) :
      Changes deps w { w.setJob n none with
        refreshTokens := Function.update w.refreshTokens w.nextId (some ⟨x.spent.grantId, grant.expiresAt, false⟩)
        nextId := w.nextId + 1 }
  | quiet {w' : World} (hquiet : Quiet w w') : Changes deps w w'

theorem Quiet.refl : Quiet w w :=
  ⟨fun _ row h => ⟨row, h, .inl rfl⟩, fun _ _ h => h, fun _ _ h => h, fun _ _ h => .inl h, le_rfl, rfl, rfl⟩

variable {k n t token grantId : Nat} {α : Type} {x : Exchange} {m : Minted} {event : Event} {f : Table α}
variable {new : Option α}

theorem update_eq_some {row : α} (h : Function.update f n new k = some row) :
    (k = n ∧ new = some row) ∨ (k ≠ n ∧ f k = some row) := by
  by_cases hk : k = n
  · rw [hk, Function.update_self] at h
    exact .inl ⟨hk, h⟩
  · rw [Function.update_of_ne hk] at h
    exact .inr ⟨hk, h⟩

theorem update_self_eq_some {row : α} (h : Function.update f n new n = some row) : new = some row :=
  (update_eq_some h).elim And.right fun hne => absurd rfl hne.1

/-- What holds of the rows before and of the new one holds of every row. -/
theorem update_all {P : Nat → α → Prop} (hnew : ∀ row ∈ new, P n row) (hold : ∀ k row, f k = some row → P k row) (k : Nat)
    (row : α) (h : Function.update f n new k = some row) : P k row := by
  rcases update_eq_some h with ⟨rfl, hrow⟩ | ⟨-, hrow⟩
  · exact hnew row hrow
  · exact hold k row hrow

theorem quiet_setJob {job : Option Job} (hquiet : ∀ j ∈ job, j.Quiet w) : Quiet w (w.setJob n job) :=
  ⟨Quiet.refl.grants, Quiet.refl.codes, Quiet.refl.refreshTokens, update_all (fun j hj => .inr (hquiet j hj)) fun _ _ h => .inl h,
    le_rfl, rfl, rfl⟩

theorem quiet_revoking {job : Option Job} (h : ∀ j ∈ job, ∃ grantId, j = .revoking grantId ∧ w.Names grantId) :
    Quiet w (w.setJob n job) := by
  refine quiet_setJob fun j hj => ?_
  obtain ⟨grantId, rfl, hnames⟩ := h j hj
  exact ⟨rfl, fun _ heq => Job.revoking.inj heq ▸ hnames⟩

theorem quiet_addJob {job : Job} (hexchange : job.exchange = none) (hnot : ∀ grantId, job ≠ .revoking grantId) :
    Quiet w (w.addJob job) := by
  have hset : Quiet w (w.setJob w.nextId (some job)) := quiet_setJob fun j hj => by
    obtain rfl := Option.some.inj hj
    exact ⟨hexchange, fun grantId h => absurd h (hnot grantId)⟩
  exact ⟨hset.grants, hset.codes, hset.refreshTokens, hset.jobs, Nat.le_succ _, rfl, rfl⟩

theorem quiet_revoke (h : Quiet w w') (grantId : Nat) : Quiet w (w'.revoke grantId) := by
  refine ⟨update_all (fun row hnew => ?_) h.grants, h.codes, h.refreshTokens, h.jobs, h.nextId, h.consents, h.minted⟩
  obtain ⟨current, hcurrent, rfl⟩ := Option.map_eq_some_iff.mp hnew
  obtain ⟨before, hbefore, rfl | rfl⟩ := h.grants grantId current hcurrent
  · exact ⟨current, hbefore, .inr rfl⟩
  · exact ⟨before, hbefore, .inr rfl⟩

theorem filter_some {p : α → Bool} {o : Option α} {a : α} (h : o.filter p = some a) : o = some a :=
  (Option.filter_eq_some_iff.mp h).1

theorem act_changes (w : World) (event : Event) : Changes deps w (w.act deps event) := by
  cases event with
  | createGrant grant redirectUri challenge now => exact .created grant redirectUri challenge now
  | consumeCode token verifier redirectUri clientId resource refreshes now =>
    simp only [World.act]
    split
    · next row hrow =>
      split
      · exact .quiet (quiet_addJob rfl (by simp))
      · next hused => exact .spendsCode hrow (by simpa using hused) rfl ⟨verifier, redirectUri, rfl⟩
    · exact .quiet (quiet_addJob rfl (by simp))
  | consumeRefreshToken token clientId resource now =>
    simp only [World.act]
    split
    · next row hrow =>
      split
      · exact .quiet (quiet_addJob rfl (by simp))
      · next hused => exact .spendsRefreshToken hrow (by simpa using hused) rfl rfl
    · exact .quiet (quiet_addJob rfl (by simp))
  | lookUp n =>
    simp only [World.act]
    split
    · next token _ =>
      refine .quiet (quiet_revoking fun job hjob => ?_)
      obtain ⟨row, hrow, rfl⟩ := Option.map_eq_some_iff.mp hjob
      exact ⟨_, rfl, .inl ⟨token, row, hrow, rfl⟩⟩
    · next token _ =>
      refine .quiet (quiet_revoking fun job hjob => ?_)
      obtain ⟨row, hrow, rfl⟩ := Option.map_eq_some_iff.mp hjob
      exact ⟨_, rfl, .inr (.inl ⟨token, row, hrow, rfl⟩)⟩
    · exact .quiet .refl
  | readGrant n read =>
    simp only [World.act]
    split
    · next x hjob =>
      cases hgrant : w.grants x.spent.grantId with
      | none => exact .quiet (quiet_setJob (by simp))
      | some grant =>
        cases haccepts : x.accepts deps grant with
        | false => exact .quiet (quiet_setJob (by simp [haccepts]))
        | true =>
          cases hauthority : grantAuthority read grant x.now with
          | none => exact .quiet (quiet_setJob (by simp [haccepts, hauthority]))
          | some authority =>
            have hchanges := Changes.authorizes hjob hgrant haccepts hauthority
            simpa [haccepts, hauthority] using hchanges
    · exact .quiet .refl
  | readAgain n =>
    simp only [World.act]
    split
    · next x grant read authority hjob =>
      split
      · next hlive =>
        obtain ⟨current, hgrant, hnot⟩ := (Option.any_eq_true _ _).mp hlive
        exact .readsAgain hjob hgrant (by simpa using hnot)
      · exact .quiet (quiet_setJob (by simp))
    · exact .quiet .refl
  | mint n bounded =>
    simp only [World.act]
    split
    · next x grant read authority hjob =>
      split
      · exact .mints hjob
      · exact .quiet (quiet_setJob (by simp))
    · exact .quiet .refl
  | insertRefreshToken n =>
    simp only [World.act]
    split
    · next x grant hjob =>
      split
      · exact .inserts hjob
      · exact .quiet (quiet_setJob (by simp))
    · exact .quiet .refl
  | revokeByRefreshToken token clientId =>
    simp only [World.act]
    split
    · exact .quiet (quiet_addJob rfl (by simp))
    · exact .quiet .refl
  | revokeByAccessToken grantId clientId subject => exact .quiet (quiet_addJob rfl (by simp))
  | readRevoked n =>
    simp only [World.act]
    split
    · next grantId clientId subject _ =>
      refine .quiet (quiet_revoking fun job hjob => ?_)
      split at hjob
      · next howns =>
        obtain rfl := Option.some.inj hjob
        obtain ⟨grant, hgrant, -⟩ := (Option.any_eq_true _ _).mp howns
        exact ⟨grantId, rfl, .inr (.inr (by rw [hgrant]; rfl))⟩
      · cases hjob
    · exact .quiet .refl
  | revokeGrant n =>
    simp only [World.act]
    split
    · exact .quiet (quiet_revoke (quiet_setJob (by simp)) _)
    · exact .quiet .refl
  | disconnect grantId => exact .quiet (quiet_revoke .refl grantId)
  | deleteSession sessionId =>
    exact .quiet ⟨fun _ row h => ⟨row, filter_some h, .inl rfl⟩, fun _ _ h => filter_some h, fun _ _ h => filter_some h,
      fun _ _ h => .inl h, le_rfl, rfl, rfl⟩
  | prune now =>
    exact .quiet ⟨fun _ row h => ⟨row, h, .inl rfl⟩, fun _ _ h => filter_some h, fun _ _ h => filter_some h, fun _ _ h => .inl h,
      le_rfl, rfl, rfl⟩

/-! ## One holder at a time -/

/-- What is traced: each presented text, or each grant. -/
inductive Thing
  | token
  | grant

def Thing.of (thing : Thing) (token grantId : Nat) : Nat :=
  match thing with
  | .token => token
  | .grant => grantId

inductive Place
  | code (token : Nat)
  | refreshToken (token : Nat)
  | job (n : Nat)
  | minted (i : Nat)

/-- An exchange holds its text until a token is signed for it, and its grant until it is over. -/
def Thing.heldBy (thing : Thing) : Job → Option Nat
  | .spent x | .authorized x _ _ _ | .signing x _ _ _ => some (thing.of x.token x.spent.grantId)
  | .inserting x _ =>
    match thing with
    | .token => none
    | .grant => some x.spent.grantId
  | _ => none

/-- An unspent row holds its text and its grant; a signed token holds the text it was signed for. -/
def World.held (w : World) (thing : Thing) : Place → Option Nat
  | .code token => (w.codes token).bind fun row => if row.used then none else some (thing.of token row.grantId)
  | .refreshToken token => (w.refreshTokens token).bind fun row => if row.used then none else some (thing.of token row.grantId)
  | .job n => (w.jobs n).bind thing.heldBy
  | .minted i =>
    match thing with
    | .token => (w.minted[i]?).map fun m => m.x.token
    | .grant => none

variable {thing : Thing}

theorem held_code :
    w.held thing (.code token) = some t ↔ ∃ row, w.codes token = some row ∧ row.used = false ∧
    thing.of token row.grantId = t := by
  simp [World.held, Option.bind_eq_some_iff]

theorem held_refreshToken : w.held thing (.refreshToken token) = some t ↔
    ∃ row, w.refreshTokens token = some row ∧ row.used = false ∧ thing.of token row.grantId = t := by
  simp [World.held, Option.bind_eq_some_iff]

theorem heldBy_quiet {job : Job} (h : job.exchange = none) : thing.heldBy job = none := by
  cases job <;> first | rfl | cases h

theorem held_job : w.held thing (.job n) = some t ↔ ∃ job, w.jobs n = some job ∧ thing.heldBy job = some t :=
  Option.bind_eq_some_iff

/-- The texts and grants named so far. -/
def World.Used (w : World) (t : Nat) : Prop := t < w.nextId

abbrev Passed (thing : Thing) (w w' : World) : Prop :=
  ∃ target, Custody.Moves w.Used w'.Used (w.held thing) (w'.held thing) target

/-- Only the job that is set may hold something new. -/
theorem job_held {job : Option Job} (hjobs : w'.jobs = Function.update w.jobs n job) (h : w'.held thing (.job k) = some t) :
    (k = n ∧ job.bind thing.heldBy = some t) ∨ w.held thing (.job k) = some t := by
  obtain ⟨found, hfound, ht⟩ := held_job.mp h
  rw [hjobs] at hfound
  rcases update_eq_some hfound with ⟨hk, hnew⟩ | ⟨-, hold⟩
  · exact .inl ⟨hk, Option.bind_eq_some_iff.mpr ⟨found, hnew, ht⟩⟩
  · exact .inr (held_job.mpr ⟨found, hold, ht⟩)

/-- An exchange that starts holds the text it spent, and that text's grant. -/
theorem spent_held (h : (w.addJob (.spent x)).held thing (.job w.nextId) = some t) : thing.of x.token x.spent.grantId = t := by
  obtain ⟨job, hjob, ht⟩ := held_job.mp h
  obtain rfl := Option.some.inj (update_self_eq_some hjob)
  exact Option.some.inj ht

theorem Quiet.held (h : Quiet w w') (place : Place) (hplace : w'.held thing place = some t) : w.held thing place = some t := by
  cases place with
  | code token =>
    obtain ⟨row, hrow, hrest⟩ := held_code.mp hplace
    exact held_code.mpr ⟨row, h.codes token row hrow, hrest⟩
  | refreshToken token =>
    obtain ⟨row, hrow, hrest⟩ := held_refreshToken.mp hplace
    exact held_refreshToken.mpr ⟨row, h.refreshTokens token row hrow, hrest⟩
  | job n =>
    obtain ⟨job, hjob, ht⟩ := held_job.mp hplace
    rcases h.jobs n job hjob with hold | hnew
    · exact held_job.mpr ⟨job, hold, ht⟩
    · rw [heldBy_quiet hnew.1] at ht
      cases ht
  | minted i =>
    cases thing with
    | token => simpa only [World.held, h.minted] using hplace
    | grant => cases hplace

/-- The next stage of an exchange holds what the stage before held. -/
theorem passed_setJob {job job' : Job} (hjob : w.jobs n = some job) (h : thing.heldBy job' = thing.heldBy job) :
    Passed thing w (w.setJob n (some job')) := by
  refine ⟨.job n, fun place t hne hplace => ?_, fun t ht => .inl ?_⟩
  · cases place with
    | job k => exact (job_held rfl hplace).resolve_left fun hk => hne (hk.1 ▸ rfl)
    | _ => exact hplace
  · rcases job_held rfl ht with ⟨-, hnew⟩ | hold
    · exact held_job.mpr ⟨job, hjob, h.symm.trans hnew⟩
    · exact hold

theorem Changes.moves (h : Changes deps w w') (thing : Thing) : Passed thing w w' := by
  cases h with
  | created grant redirectUri challenge now =>
    refine ⟨.code (w.nextId + 1), fun place t hne hplace => ?_, fun t ht => .inr (.inr ?_)⟩
    · cases place with
      | code token =>
        obtain ⟨row, hrow, hrest⟩ := held_code.mp hplace
        rcases update_eq_some hrow with ⟨rfl, -⟩ | ⟨-, hold⟩
        · exact absurd rfl hne
        · exact held_code.mpr ⟨row, hold, hrest⟩
      | _ => exact hplace
    · obtain ⟨row, hrow, -, rfl⟩ := held_code.mp ht
      obtain rfl := Option.some.inj (update_self_eq_some hrow)
      cases thing <;> simp [World.Used, Thing.of, World.act]
  | @spendsCode token row x hrow hused htoken hspent =>
    obtain ⟨verifier, redirectUri, hspent⟩ := hspent
    refine ⟨.job w.nextId, fun place t hne hplace => ?_, fun t ht => .inr (.inl ⟨.code token, ?_, ?_⟩)⟩
    · cases place with
      | code other =>
        obtain ⟨found, hfound, hfree, hrest⟩ := held_code.mp hplace
        rcases update_eq_some hfound with ⟨-, hnew⟩ | ⟨-, hold⟩
        · obtain rfl := Option.some.inj hnew
          cases hfree
        · exact held_code.mpr ⟨found, hold, hfree, hrest⟩
      | job k => exact (job_held rfl hplace).resolve_left fun hk => hne (hk.1 ▸ rfl)
      | _ => exact hplace
    · rw [← spent_held ht, htoken, hspent]
      exact held_code.mpr ⟨row, hrow, hused, rfl⟩
    · simp [World.held, World.addJob, World.setJob]
  | @spendsRefreshToken token row x hrow hused htoken hspent =>
    refine ⟨.job w.nextId, fun place t hne hplace => ?_, fun t ht => .inr (.inl ⟨.refreshToken token, ?_, ?_⟩)⟩
    · cases place with
      | refreshToken other =>
        obtain ⟨found, hfound, hfree, hrest⟩ := held_refreshToken.mp hplace
        rcases update_eq_some hfound with ⟨-, hnew⟩ | ⟨-, hold⟩
        · obtain rfl := Option.some.inj hnew
          cases hfree
        · exact held_refreshToken.mpr ⟨found, hold, hfree, hrest⟩
      | job k => exact (job_held rfl hplace).resolve_left fun hk => hne (hk.1 ▸ rfl)
      | _ => exact hplace
    · rw [← spent_held ht, htoken, hspent]
      exact held_refreshToken.mpr ⟨row, hrow, hused, rfl⟩
    · simp [World.held, World.addJob, World.setJob]
  | authorizes hjob => exact passed_setJob hjob rfl
  | readsAgain hjob => exact passed_setJob hjob rfl
  | @mints n x grant read authority hjob =>
    refine ⟨.minted w.minted.length, fun place t hne hplace => ?_, fun t ht => .inr (.inl ⟨.job n, ?_, ?_⟩)⟩
    · cases place with
      | job k =>
        rcases job_held rfl hplace with ⟨rfl, hnew⟩ | hold
        · split at hnew
          · cases thing with
            | token => cases hnew
            | grant => exact held_job.mpr ⟨_, hjob, hnew⟩
          · cases hnew
        · exact hold
      | minted i =>
        cases thing with
        | grant => cases hplace
        | token =>
          have hi : i ≠ w.minted.length := fun h => hne (h ▸ rfl)
          rw [← hplace]
          simp only [World.held]
          grind
      | _ => exact hplace
    · cases thing with
      | grant => cases ht
      | token => simpa [World.held, hjob, Thing.heldBy, Thing.of] using ht
    · cases thing with
      | grant => cases ht
      | token => cases x.refreshes <;> simp [World.held, World.setJob, Thing.heldBy]
  | @inserts n x grant hjob =>
    refine ⟨.refreshToken w.nextId, fun place t hne hplace => ?_, fun t ht => .inr ?_⟩
    · cases place with
      | refreshToken token =>
        obtain ⟨row, hrow, hrest⟩ := held_refreshToken.mp hplace
        rcases update_eq_some hrow with ⟨rfl, -⟩ | ⟨-, hold⟩
        · exact absurd rfl hne
        · exact held_refreshToken.mpr ⟨row, hold, hrest⟩
      | job k =>
        rcases job_held rfl hplace with ⟨-, hnew⟩ | hold
        · cases hnew
        · exact hold
      | _ => exact hplace
    · obtain ⟨row, hrow, -, rfl⟩ := held_refreshToken.mp ht
      obtain rfl := Option.some.inj (update_self_eq_some hrow)
      cases thing with
      | grant => exact .inl ⟨.job n, held_job.mpr ⟨_, hjob, rfl⟩, by simp [World.held, World.setJob]⟩
      | token => exact .inr ⟨Nat.lt_irrefl _, Nat.lt_succ_self _⟩
  | quiet hquiet => exact ⟨.minted 0, fun place t _ => hquiet.held place, fun t ht => .inl (hquiet.held _ ht)⟩

theorem Changes.nextId_le (h : Changes deps w w') : w.nextId ≤ w'.nextId := by
  cases h with
  | quiet hquiet => exact hquiet.nextId
  | _ => simp [World.act, World.addJob, World.setJob]

/-! ## What rows, jobs and tokens say of their grant -/

/-- A code is spent as it was created. -/
def Exchange.Of (x : Exchange) (consent : Consent) : Prop :=
  ∀ row verifier redirectUri, x.spent = .code row verifier redirectUri → row = consent.code

/-- The grant as consented to let the exchange through with this authority. -/
structure Authorized (deps : Deps) (consents : Table Consent) (x : Exchange) (grant : Grant) (read : Reads)
    (authority : Authority) : Prop where
  consent : ∃ consent, consents x.spent.grantId = some consent ∧ consent.grant = { grant with revoked := false } ∧ x.Of consent
  accepts : x.accepts deps grant = true
  authority : grantAuthority read grant x.now = some authority

def Job.Sound (deps : Deps) (consents : Table Consent) : Job → Prop
  | .spent x | .inserting x _ => ∃ consent, consents x.spent.grantId = some consent ∧ x.Of consent
  | .authorized x grant read authority | .signing x grant read authority => Authorized deps consents x grant read authority
  | .revoking grantId => (consents grantId).isSome
  | _ => True

def Minted.Sound (deps : Deps) (consents : Table Consent) (m : Minted) : Prop :=
  ∃ grant authority, Authorized deps consents m.x grant m.read authority ∧ m.access = accessToken m.x grant authority

structure Sound (deps : Deps) (w : World) : Prop where
  consents_lt : ∀ id consent, w.consents id = some consent → id < w.nextId
  grants : ∀ id row, w.grants id = some row → ∃ consent, w.consents id = some consent ∧
    consent.grant = { row with revoked := false }
  codes : ∀ token row, w.codes token = some row → token < w.nextId ∧
    ∃ consent, w.consents row.grantId = some consent ∧ { row with used := false } = consent.code
  refreshTokens : ∀ token row, w.refreshTokens token = some row → token < w.nextId ∧ (w.consents row.grantId).isSome
  jobs : ∀ n job, w.jobs n = some job → job.Sound deps w.consents
  minted : ∀ m ∈ w.minted, m.Sound deps w.consents

theorem sound_init : Sound deps init := by
  constructor <;> intro _ <;> first | (intro _ h; cases h) | (intro h; cases h)

/-- What was given stays on record. -/
def Records (consents consents' : Table Consent) : Prop := ∀ id consent, consents id = some consent → consents' id = some consent

section Records

variable {consents consents' : Table Consent}

theorem Records.isSome (h : Records consents consents') {id : Nat} (hsome : (consents id).isSome) : (consents' id).isSome := by
  obtain ⟨consent, hconsent⟩ := Option.isSome_iff_exists.mp hsome
  exact Option.isSome_iff_exists.mpr ⟨consent, h id consent hconsent⟩

theorem Records.authorized (h : Records consents consents') {grant : Grant} {read : Reads} {authority : Authority}
    (ha : Authorized deps consents x grant read authority) : Authorized deps consents' x grant read authority := by
  obtain ⟨consent, hconsent, hrest⟩ := ha.consent
  exact ⟨⟨consent, h _ _ hconsent, hrest⟩, ha.accepts, ha.authority⟩

theorem Records.job (h : Records consents consents') {job : Job} (hjob : job.Sound deps consents) : job.Sound deps consents' := by
  cases job with
  | spent x | inserting x =>
    obtain ⟨consent, hconsent, hof⟩ := hjob
    exact ⟨consent, h _ _ hconsent, hof⟩
  | authorized x grant read authority | signing x grant read authority => exact h.authorized hjob
  | revoking grantId => exact h.isSome hjob
  | _ => exact trivial

end Records

theorem Sound.setJob (h : Sound deps w) {job : Option Job} (hjob : ∀ j ∈ job, j.Sound deps w.consents) :
    Sound deps (w.setJob n job) := by
  exact ⟨h.consents_lt, h.grants, h.codes, h.refreshTokens, update_all hjob h.jobs, h.minted⟩

theorem Sound.addJob (h : Sound deps w) {job : Job} (hjob : job.Sound deps w.consents) : Sound deps (w.addJob job) := by
  have hset : Sound deps (w.setJob w.nextId (some job)) := h.setJob (by simpa using hjob)
  exact ⟨fun id row hrow => Nat.lt_succ_of_lt (h.consents_lt id row hrow), h.grants,
    fun token row hrow => (h.codes token row hrow).imp_left Nat.lt_succ_of_lt,
    fun token row hrow => (h.refreshTokens token row hrow).imp_left Nat.lt_succ_of_lt, hset.jobs, h.minted⟩

theorem Sound.created (h : Sound deps w) (grant : Grant) (redirectUri challenge : String) (now : Nat) :
    Sound deps (w.act deps (.createGrant grant redirectUri challenge now)) := by
  have hrecords : Records w.consents (w.act deps (.createGrant grant redirectUri challenge now)).consents :=
    fun id consent hconsent =>
    (Function.update_of_ne (Nat.ne_of_lt (h.consents_lt id consent hconsent)) _ _).trans hconsent
  refine ⟨update_all (fun _ _ => Nat.lt_add_of_pos_right Nat.two_pos) fun id consent hold =>
    Nat.lt_add_right 2 (h.consents_lt id consent hold),
    update_all (fun row hnew => ?_) fun id row hold => ?_, update_all (fun row hnew => ?_) fun token row hold => ?_,
    fun token row hrow => (h.refreshTokens token row hrow).imp (Nat.lt_add_right 2) hrecords.isSome, fun n job hjob =>
    hrecords.job (h.jobs n job hjob), ?_⟩
  · obtain rfl := Option.some.inj hnew
    exact ⟨_, Function.update_self .., rfl⟩
  · obtain ⟨consent, hconsent, hsame⟩ := h.grants id row hold
    exact ⟨consent, hrecords id consent hconsent, hsame⟩
  · obtain rfl := Option.some.inj hnew
    exact ⟨Nat.lt_succ_self _, _, Function.update_self .., rfl⟩
  · obtain ⟨hlt, consent, hconsent, hsame⟩ := h.codes token row hold
    exact ⟨Nat.lt_add_right 2 hlt, consent, hrecords _ consent hconsent, hsame⟩
  · intro m hm
    obtain ⟨grant, authority, hauthorized, haccess⟩ := h.minted m hm
    exact ⟨grant, authority, hrecords.authorized hauthorized, haccess⟩

theorem Sound.named (h : Sound deps w) {grantId : Nat} (hnames : w.Names grantId) : (w.consents grantId).isSome := by
  rcases hnames with ⟨token, row, hrow, rfl⟩ | ⟨token, row, hrow, rfl⟩ | hgrant
  · obtain ⟨-, consent, hconsent, -⟩ := h.codes token row hrow
    exact Option.isSome_iff_exists.mpr ⟨consent, hconsent⟩
  · exact (h.refreshTokens token row hrow).2
  · obtain ⟨row, hrow⟩ := Option.isSome_iff_exists.mp hgrant
    obtain ⟨consent, hconsent, -⟩ := h.grants grantId row hrow
    exact Option.isSome_iff_exists.mpr ⟨consent, hconsent⟩

theorem Quiet.sound (h : Quiet w w') (hs : Sound deps w) : Sound deps w' := by
  constructor
  · intro id consent hconsent
    exact (hs.consents_lt id consent (h.consents ▸ hconsent)).trans_le h.nextId
  · intro id row hrow
    rw [h.consents]
    obtain ⟨before, hbefore, rfl | rfl⟩ := h.grants id row hrow
    · exact hs.grants id row hbefore
    · exact hs.grants id before hbefore
  · intro token row hrow
    rw [h.consents]
    exact (hs.codes token row (h.codes token row hrow)).imp_left (·.trans_le h.nextId)
  · intro token row hrow
    rw [h.consents]
    exact (hs.refreshTokens token row (h.refreshTokens token row hrow)).imp_left (·.trans_le h.nextId)
  · intro n job hjob
    rw [h.consents]
    rcases h.jobs n job hjob with hold | ⟨hexchange, hnames⟩
    · exact hs.jobs n job hold
    · cases job with
      | replayedCode | replayedRefreshToken | revoked => exact trivial
      | revoking grantId => exact hs.named (hnames grantId rfl)
      | _ => cases hexchange
  · rw [h.minted, h.consents]
    exact hs.minted

theorem Changes.sound (h : Changes deps w w') (hs : Sound deps w) : Sound deps w' := by
  cases h with
  | created grant redirectUri challenge now => exact hs.created grant redirectUri challenge now
  | @spendsCode token row x hrow hused htoken hspent =>
    obtain ⟨verifier, redirectUri, hspent⟩ := hspent
    have hspentSound : Sound deps { w with codes := Function.update w.codes token (some { row with used := true }) } := by
      refine ⟨hs.consents_lt, hs.grants, update_all (fun code hnew => ?_) hs.codes, hs.refreshTokens, hs.jobs, hs.minted⟩
      obtain rfl := Option.some.inj hnew
      exact hs.codes token row hrow
    obtain ⟨-, consent, hconsent, hsame⟩ := hs.codes token row hrow
    rw [← hused] at hsame
    refine hspentSound.addJob ⟨consent, by rw [hspent]; exact hconsent, fun code v r hcode => ?_⟩
    rw [hspent] at hcode
    cases hcode
    exact hsame
  | @spendsRefreshToken token row x hrow hused htoken hspent =>
    have hspentSound : Sound deps { w with refreshTokens := Function.update w.refreshTokens token (some { row with used := true })
        } := by
      refine ⟨hs.consents_lt, hs.grants, hs.codes, update_all (fun found hnew => ?_) hs.refreshTokens, hs.jobs, hs.minted⟩
      obtain rfl := Option.some.inj hnew
      exact hs.refreshTokens token row hrow
    obtain ⟨consent, hconsent⟩ := Option.isSome_iff_exists.mp (hs.refreshTokens token row hrow).2
    refine hspentSound.addJob ⟨consent, by rw [hspent]; exact hconsent, fun code v r hcode => ?_⟩
    rw [hspent] at hcode
    cases hcode
  | @authorizes n x grant read authority hjob hgrant haccepts hauthority =>
    refine hs.setJob fun j hj => ?_
    obtain rfl := Option.some.inj hj
    obtain ⟨consent, hconsent, hof⟩ := hs.jobs n _ hjob
    obtain ⟨given, hgiven, hsame⟩ := hs.grants _ _ hgrant
    obtain rfl := Option.some.inj (hconsent.symm.trans hgiven)
    exact ⟨⟨consent, hconsent, hsame, hof⟩, haccepts, hauthority⟩
  | @readsAgain n x grant current read authority hjob hgrant hlive =>
    have hauthorized : Authorized deps w.consents x grant read authority := hs.jobs n _ hjob
    refine hs.setJob fun j hj => ?_
    obtain rfl := Option.some.inj hj
    exact hauthorized
  | @mints n x grant read authority hjob =>
    have hauthorized : Authorized deps w.consents x grant read authority := hs.jobs n _ hjob
    have hset : Sound deps (w.setJob n (if x.refreshes then some (.inserting x grant) else none)) := by
      refine hs.setJob fun j hj => ?_
      split at hj
      · obtain rfl := Option.some.inj hj
        obtain ⟨consent, hconsent, -, hof⟩ := hauthorized.consent
        exact ⟨consent, hconsent, hof⟩
      · cases hj
    refine ⟨hset.consents_lt, hset.grants, hset.codes, hset.refreshTokens, hset.jobs, fun m hm => ?_⟩
    rcases List.mem_append.mp hm with hm | hm
    · exact hs.minted m hm
    · obtain rfl := List.mem_singleton.mp hm
      exact ⟨grant, authority, hauthorized, rfl⟩
  | @inserts n x grant hjob =>
    have hset : Sound deps (w.setJob n none) := hs.setJob (by simp)
    refine ⟨fun id row hrow => Nat.lt_succ_of_lt (hs.consents_lt id row hrow), hset.grants,
      fun token row hrow => (hs.codes token row hrow).imp_left Nat.lt_succ_of_lt,
      update_all (fun row hnew => ?_) fun token row hrow =>
      (hs.refreshTokens token row hrow).imp_left Nat.lt_succ_of_lt, hset.jobs, hset.minted⟩
    obtain rfl := Option.some.inj hnew
    obtain ⟨consent, hconsent, -⟩ := hs.jobs n _ hjob
    exact ⟨Nat.lt_succ_self _, Option.isSome_iff_exists.mpr ⟨consent, hconsent⟩⟩
  | quiet hquiet => exact hquiet.sound hs

/-! ## Every run -/

theorem after_of_step {P : World → Prop} (hstep : ∀ w w', P w → Changes deps w w' → P w') (events : List Event) (h : P w) :
    P (w.after deps events) := by
  induction events generalizing w with
  | nil => exact h
  | cons event rest ih => exact ih (hstep w _ h (act_changes w event))

theorem after_append (first second : List Event) : w.after deps (first ++ second) = (w.after deps first).after deps second :=
  List.foldl_append

theorem kept_init (thing : Thing) : Custody.Kept init.Used (init.held thing) := by
  have hnone : ∀ place, init.held thing place = none := by
    intro place
    cases place with
    | minted i => cases thing <;> rfl
    | _ => rfl
  refine ⟨fun a b t ha => ?_, fun a t ha => ?_⟩
  · rw [hnone] at ha
    cases ha
  · rw [hnone] at ha
    cases ha

theorem after_kept (thing : Thing) (events : List Event) :
    Custody.Kept (init.after deps events).Used ((init.after deps events).held thing) :=
  after_of_step (P := fun w => Custody.Kept w.Used (w.held thing))
    (fun _ _ hkept h => (h.moves thing).elim fun _ hmoves =>
      hmoves.kept (fun _ ht => ht.trans_le h.nextId_le) hkept) events (kept_init thing)

theorem after_sound (events : List Event) : Sound deps (init.after deps events) :=
  after_of_step (fun _ _ hs h => h.sound hs) events sound_init

/-- No text has two tokens signed for it. A grant has one unspent refresh token at most, and while
    it has one its codes are spent and no exchange of it is under way. -/
structure OneFamily (w : World) : Prop where
  once : (w.minted.map fun m => m.x.token).Nodup
  single : ∀ token row other row', w.refreshTokens token = some row → row.used = false → w.refreshTokens other = some row' →
    row'.used = false → row'.grantId = row.grantId → other = token
  spent : ∀ token row code row', w.refreshTokens token = some row → row.used = false → w.codes code = some row' →
    row'.grantId = row.grantId → row'.used = true
  idle : ∀ token row n job x, w.refreshTokens token = some row → row.used = false → w.jobs n = some job → job.exchange = some x →
    x.spent.grantId ≠ row.grantId

theorem heldBy_grant {job : Job} (h : job.exchange = some x) : Thing.grant.heldBy job = some x.spent.grantId := by
  cases job <;> cases h <;> rfl

theorem one_family (deps : Deps) (events : List Event) : OneFamily (init.after deps events) := by
  generalize hw : init.after deps events = w
  have htoken : Custody.Kept w.Used (w.held .token) := hw ▸ after_kept .token events
  have hgrant : Custody.Kept w.Used (w.held .grant) := hw ▸ after_kept .grant events
  refine ⟨?_, fun token row other row' hrow hfree hrow' hfree' hsame => ?_, fun token row code row' hrow hfree hcode hsame => ?_,
    fun token row n job x hrow hfree hjob hx hsame => ?_⟩
  · rw [List.nodup_iff_injective_getElem]
    intro i j hij
    have hat : ∀ k : Fin (w.minted.map fun m => m.x.token).length,
        w.held .token (.minted k) = some (w.minted.map fun m => m.x.token)[k] := by
      intro k
      have hk : (k : Nat) < w.minted.length := by simpa using k.isLt
      simp [World.held, List.getElem?_eq_getElem hk]
    have hplace := htoken.unique _ _ _ (hat i) ((hat j).trans (congrArg some hij.symm))
    exact Fin.ext (Place.minted.inj hplace)
  · have hplace := hgrant.unique (.refreshToken other) (.refreshToken token) row.grantId
      (held_refreshToken.mpr ⟨row', hrow', hfree', hsame⟩) (held_refreshToken.mpr ⟨row, hrow, hfree, rfl⟩)
    exact Place.refreshToken.inj hplace
  · by_contra hunspent
    have hplace := hgrant.unique (.code code) (.refreshToken token) row.grantId
      (held_code.mpr ⟨row', hcode, by simpa using hunspent, hsame⟩) (held_refreshToken.mpr ⟨row, hrow, hfree, rfl⟩)
    cases hplace
  · have hjobHolds : w.held .grant (.job n) = some row.grantId := by
      rw [← hsame, ← heldBy_grant hx]
      simp [World.held, hjob]
    have hplace :=
      hgrant.unique (.job n) (.refreshToken token) row.grantId hjobHolds (held_refreshToken.mpr ⟨row, hrow, hfree, rfl⟩)
    cases hplace

/-! ## Revoked grants -/

/-- The grant was given, and is revoked or gone. -/
def World.Closed (w : World) (grantId : Nat) : Prop :=
  (w.consents grantId).isSome ∧ ∀ row, w.grants grantId = some row → row.revoked = true

/-- The token is signed, or its exchange has read the grant for the second time and is to sign it. -/
def World.Past (w : World) (m : Minted) : Prop :=
  m ∈ w.minted ∨ ∃ n grant authority, w.jobs n = some (.signing m.x grant m.read authority) ∧
    m.access = accessToken m.x grant authority

/-- A job that is set is past the second read only where it was before. -/
theorem past_setJob {j : Option Job} (h : (w.setJob n j).Past m)
    (hjob : ∀ grant authority, j = some (.signing m.x grant m.read authority) →
      m.access = accessToken m.x grant authority → w.Past m) :
    w.Past m := by
  rcases h with hm | ⟨k, grant, authority, hk, haccess⟩
  · exact .inl hm
  · rcases update_eq_some hk with ⟨-, hnew⟩ | ⟨-, hold⟩
    · exact hjob grant authority hnew haccess
    · exact .inr ⟨k, grant, authority, hold, haccess⟩

theorem past_addJob {j : Job} (h : (w.addJob j).Past m)
    (hjob : ∀ grant authority, j ≠ .signing m.x grant m.read authority) : w.Past m :=
  past_setJob (n := w.nextId) (j := some j) h fun grant authority hsigning =>
    absurd (Option.some.inj hsigning) (hjob grant authority)

/-- No exchange reads a closed grant for the second time and goes on. -/
theorem Changes.closed (h : Changes deps w w') (hs : Sound deps w) (hclosed : w.Closed grantId) :
    w'.Closed grantId ∧ ∀ m, m.x.spent.grantId = grantId → w'.Past m → w.Past m := by
  cases h with
  | created grant redirectUri challenge now =>
    obtain ⟨consent, hconsent⟩ := Option.isSome_iff_exists.mp hclosed.1
    have hne : grantId ≠ w.nextId := Nat.ne_of_lt (hs.consents_lt grantId consent hconsent)
    simp only [World.Closed, World.act, Function.update_of_ne hne]
    exact ⟨hclosed, fun _ _ hpast => hpast⟩
  | spendsCode | spendsRefreshToken => exact ⟨hclosed, fun m _ hpast => past_addJob hpast (by simp)⟩
  | authorizes => exact ⟨hclosed, fun m _ hpast => past_setJob hpast (by simp)⟩
  | @readsAgain n x grant current read authority hjob hgrant hlive =>
    refine ⟨hclosed, fun m hsame hpast => past_setJob hpast fun grant' authority' hsigning _ => ?_⟩
    obtain ⟨hx, -⟩ := Job.signing.inj (Option.some.inj hsigning)
    rw [← hsame, ← hx] at hclosed
    rw [hclosed.2 current hgrant] at hlive
    cases hlive
  | @mints n x grant read authority hjob =>
    refine ⟨hclosed, fun m _ hpast => ?_⟩
    rcases hpast with hm | hsigning
    · rcases List.mem_append.mp hm with hm | hm
      · exact .inl hm
      · obtain rfl := List.mem_singleton.mp hm
        exact .inr ⟨n, grant, authority, hjob, rfl⟩
    · refine past_setJob (.inr hsigning) fun grant' authority' hnew _ => ?_
      split at hnew <;> cases hnew
  | inserts => exact ⟨hclosed, fun m _ hpast => past_setJob hpast (by simp)⟩
  | quiet hquiet =>
    refine ⟨?_, fun m _ hpast => ?_⟩
    · rw [World.Closed, hquiet.consents]
      refine ⟨hclosed.1, fun row hrow => ?_⟩
      obtain ⟨before, hbefore, rfl | rfl⟩ := hquiet.grants grantId row hrow
      · exact hclosed.2 row hbefore
      · rfl
    · rcases hpast with hm | ⟨k, grant, authority, hk, haccess⟩
      · exact .inl (hquiet.minted ▸ hm)
      · rcases hquiet.jobs k _ hk with hold | hnew
        · exact .inr ⟨k, grant, authority, hold, haccess⟩
        · cases hnew.1

theorem closed_after (events : List Event) (hs : Sound deps w) (hclosed : w.Closed grantId) :
    ∀ m ∈ (w.after deps events).minted, m.x.spent.grantId = grantId → w.Past m := by
  have hall := after_of_step
    (P := fun w' => Sound deps w' ∧ w'.Closed grantId ∧ ∀ m : Minted, m.x.spent.grantId = grantId → w'.Past m → w.Past m)
    (fun v v' hv h => ⟨h.sound hv.1, (h.closed hv.1 hv.2.1).1,
      fun m hsame hpast => hv.2.2 m hsame ((h.closed hv.1 hv.2.1).2 m hsame hpast)⟩)
    events ⟨hs, hclosed, fun _ _ hpast => hpast⟩
  exact fun m hm hsame => hall.2.2 m hsame (.inl hm)

/-- The event ends the grant: a revocation's last step, a disconnection, or its session's deletion. -/
def World.Ends (w : World) (grantId : Nat) : Event → Prop
  | .revokeGrant n => w.jobs n = some (.revoking grantId)
  | .disconnect id => id = grantId ∧ (w.consents id).isSome
  | .deleteSession sessionId => ∃ consent, w.consents grantId = some consent ∧ consent.grant.sessionId = sessionId
  | _ => False

theorem closed_revoke (hconsent : (w.consents grantId).isSome) : (w.revoke grantId).Closed grantId := by
  refine ⟨hconsent, fun row hrow => ?_⟩
  simp only [World.revoke, Function.update_self] at hrow
  obtain ⟨before, -, rfl⟩ := Option.map_eq_some_iff.mp hrow
  rfl

theorem Sound.ends (hs : Sound deps w) (event : Event) (h : w.Ends grantId event) :
    (w.act deps event).Closed grantId ∧ ∀ m, (w.act deps event).Past m → w.Past m := by
  cases event with
  | revokeGrant n =>
    have hjob : w.jobs n = some (.revoking grantId) := h
    simp only [World.act, hjob]
    exact ⟨closed_revoke (w := w.setJob n none) (hs.jobs n _ hjob),
      fun m hpast => past_setJob (n := n) (j := none) hpast (by simp)⟩
  | disconnect id =>
    obtain ⟨rfl, hconsent⟩ := h
    exact ⟨closed_revoke hconsent, fun _ hpast => hpast⟩
  | deleteSession sessionId =>
    obtain ⟨consent, hconsent, rfl⟩ := h
    refine ⟨⟨by rw [World.act, World.ofGrants, hconsent]; rfl, fun row hrow => ?_⟩, fun _ hpast => hpast⟩
    obtain ⟨hrow, hother⟩ := Option.filter_eq_some_iff.mp hrow
    obtain ⟨given, hgiven, hsame⟩ := hs.grants grantId row hrow
    obtain rfl := Option.some.inj (hconsent.symm.trans hgiven)
    simp [hsame] at hother
  | _ => cases h

/-- Once a grant is ended, a token is signed for it only where the exchange had read it twice before. -/
theorem ended_for_good (deps : Deps) (before after : List Event) (event : Event) (grantId : Nat)
    (h : (init.after deps before).Ends grantId event) :
    ∀ m ∈ (init.after deps (before ++ event :: after)).minted, m.x.spent.grantId = grantId → (init.after deps before).Past m := by
  obtain ⟨hclosed, hpast⟩ := (after_sound before).ends event h
  rw [after_append]
  exact fun m hm hsame => hpast m (closed_after after ((act_changes _ event).sound (after_sound before)) hclosed m hm hsame)

/-- A code was redeemed, and its exchange is about to read the grant for the second time. -/
def redeemed : List Event :=
  [.createGrant ⟨"p", "s", "c", "a", "r", ["read"], 99, false⟩ "u" "v" 0, .consumeCode 1 "v" "u" "c" "r" true 1,
    .readGrant 2 ⟨some ⟨[⟨"r", "a", [("read", [])]⟩], ["c"]⟩, some ⟨none, "p", true⟩, some ⟨"p", true, true⟩, ⟨[], []⟩⟩]

theorem redeemed_not_past (m : Minted) : ¬ (init.after ⟨id, id⟩ redeemed).Past m := by
  intro h
  rcases h with hm | ⟨n, grant, authority, hjob, -⟩
  · exact List.not_mem_nil hm
  · rcases update_eq_some (f := Function.update init.jobs 2 _) hjob with ⟨-, hnew⟩ | ⟨-, hold⟩
    · exact Job.noConfusion (Option.some.inj hnew)
    · rcases update_eq_some hold with ⟨-, hnew⟩ | ⟨-, hnone⟩
      · exact Job.noConfusion (Option.some.inj hnew)
      · cases hnone

theorem disconnected_in_time :
    ¬ ∃ m ∈ (init.after ⟨id, id⟩ (redeemed ++ .disconnect 0 :: [.readAgain 2, .mint 2 true])).minted, m.x.spent.grantId = 0 := by
  rintro ⟨m, hm, hgrant⟩
  exact redeemed_not_past m (ended_for_good ⟨id, id⟩ redeemed [.readAgain 2, .mint 2 true] (.disconnect 0) 0 ⟨rfl, rfl⟩
    m hm hgrant)

/-! ## Replays -/

/-- The job that takes the step. -/
def Event.job : Event → Option Nat
  | .lookUp n | .readGrant n _ | .readAgain n | .mint n _ | .insertRefreshToken n | .readRevoked n | .revokeGrant n => some n
  | _ => none

/-- No row is deleted. -/
def Event.spares : Event → Bool
  | .deleteSession _ | .prune _ => false
  | _ => true

/-- The event presents a spent row of the grant. -/
def World.Replays (w : World) (grantId : Nat) : Event → Prop
  | .consumeCode token _ _ _ _ _ _ => ∃ row, w.codes token = some row ∧ row.used = true ∧ row.grantId = grantId
  | .consumeRefreshToken token _ _ _ => ∃ row, w.refreshTokens token = some row ∧ row.used = true ∧ row.grantId = grantId
  | _ => False

/-- The job knows of a spent row of the grant that is still there. -/
inductive World.Detects (w : World) (grantId n : Nat) : Prop
  | code {token : Nat} {row : Code} (hjob : w.jobs n = some (.replayedCode token)) (hrow : w.codes token = some row)
      (hused : row.used = true) (hgrant : row.grantId = grantId)
  | refreshToken {token : Nat} {row : RefreshToken} (hjob : w.jobs n = some (.replayedRefreshToken token))
      (hrow : w.refreshTokens token = some row) (hused : row.used = true) (hgrant : row.grantId = grantId)

theorem jobs_setJob {job : Option Job} (h : n ≠ k) : (w.setJob k job).jobs n = w.jobs n := Function.update_of_ne h _ _

theorem act_job (h : event.job ≠ some n) (hn : n < w.nextId) : (w.act deps event).jobs n = w.jobs n := by
  have hnew : n ≠ w.nextId := Nat.ne_of_lt hn
  cases event with
  | lookUp k | readGrant k | readAgain k | mint k | insertRefreshToken k | readRevoked k | revokeGrant k =>
    have hk : n ≠ k := fun heq => h (heq ▸ rfl)
    simp only [World.act]
    split <;> first | exact jobs_setJob hk | rfl | (split <;> exact jobs_setJob hk)
  | consumeCode | consumeRefreshToken | revokeByRefreshToken =>
    simp only [World.act]
    split <;> first | exact jobs_setJob hnew | rfl | (split <;> exact jobs_setJob hnew)
  | revokeByAccessToken => exact jobs_setJob hnew
  | _ => rfl

theorem spent_code_stays (hs : Sound deps w) {row : Code} (hrow : w.codes token = some row) (hused : row.used = true)
    (hspares : event.spares = true) : (w.act deps event).codes token = some row := by
  cases event with
  | createGrant =>
    have hlt := (hs.codes token row hrow).1
    exact (Function.update_of_ne (by omega) _ _).trans hrow
  | consumeCode t =>
    by_cases ht : token = t
    · subst ht
      simp only [World.act, hrow, hused, if_true]
      exact hrow
    · simp only [World.act]
      split
      · split
        · exact hrow
        · exact (Function.update_of_ne ht _ _).trans hrow
      · exact hrow
  | deleteSession | prune => cases hspares
  | _ =>
    simp only [World.act]
    first | exact hrow | (split <;> first | exact hrow | (split <;> exact hrow))

theorem spent_refreshToken_stays (hs : Sound deps w) {row : RefreshToken} (hrow : w.refreshTokens token = some row)
    (hused : row.used = true) (hspares : event.spares = true) : (w.act deps event).refreshTokens token = some row := by
  cases event with
  | consumeRefreshToken t =>
    by_cases ht : token = t
    · subst ht
      simp only [World.act, hrow, hused, if_true]
      exact hrow
    · simp only [World.act]
      split
      · split
        · exact hrow
        · exact (Function.update_of_ne ht _ _).trans hrow
      · exact hrow
  | insertRefreshToken =>
    have hlt := (hs.refreshTokens token row hrow).1
    simp only [World.act]
    split
    · split
      · exact (Function.update_of_ne (by omega) _ _).trans hrow
      · exact hrow
    · exact hrow
  | deleteSession | prune => cases hspares
  | _ =>
    simp only [World.act]
    first | exact hrow | (split <;> first | exact hrow | (split <;> exact hrow))

/-- The grant's revocation is the job's next step, or the grant is closed. -/
def World.Owes (w : World) (grantId n : Nat) : Prop := (w.jobs n = some (.revoking grantId) ∧ n < w.nextId) ∨ w.Closed grantId

theorem Sound.owes (hs : Sound deps w) (h : w.Owes grantId n) (event : Event) : (w.act deps event).Owes grantId n := by
  rcases h with ⟨hjob, hn⟩ | hclosed
  · by_cases hown : event.job = some n
    · by_cases hlast : event = .revokeGrant n
      · subst hlast
        exact .inr (hs.ends (.revokeGrant n) hjob).1
      · have hsame : w.act deps event = w := by
          cases event <;> cases hown <;> first | exact absurd rfl hlast | simp only [World.act, hjob]
        rw [hsame]
        exact .inl ⟨hjob, hn⟩
    · exact .inl ⟨(act_job hown hn).trans hjob, hn.trans_le (act_changes w event).nextId_le⟩
  · exact .inr ((act_changes w event).closed hs hclosed).1

theorem Sound.detects (hs : Sound deps w) (hn : n < w.nextId) (h : w.Detects grantId n) (hspares : event.spares = true)
    (hnot : event ≠ .lookUp n) : (w.act deps event).Detects grantId n := by
  by_cases hown : event.job = some n
  · have hsame : w.act deps event = w := by
      cases h with
      | code hjob => cases event <;> cases hown <;> first | exact absurd rfl hnot | simp only [World.act, hjob]
      | refreshToken hjob => cases event <;> cases hown <;> first | exact absurd rfl hnot | simp only [World.act, hjob]
    rw [hsame]
    exact h
  · cases h with
    | code hjob hrow hused hgrant =>
      exact .code ((act_job hown hn).trans hjob) (spent_code_stays hs hrow hused hspares) hused hgrant
    | refreshToken hjob hrow hused hgrant =>
      exact .refreshToken ((act_job hown hn).trans hjob) (spent_refreshToken_stays hs hrow hused hspares) hused hgrant

theorem detects_lookUp (hn : n < w.nextId) (h : w.Detects grantId n) : (w.act deps (.lookUp n)).Owes grantId n := by
  refine .inl ⟨?_, hn.trans_le (act_changes w (.lookUp n)).nextId_le⟩
  cases h with
  | code hjob hrow hused hgrant => simp [World.act, hjob, hrow, hgrant, World.setJob]
  | refreshToken hjob hrow hused hgrant => simp [World.act, hjob, hrow, hgrant, World.setJob]

theorem detects_replay (h : w.Replays grantId event) :
    (w.act deps event).Detects grantId w.nextId ∧ w.nextId < (w.act deps event).nextId := by
  cases event with
  | consumeCode token =>
    obtain ⟨row, hrow, hused, hgrant⟩ := h
    simp only [World.act, hrow, hused, if_true]
    exact ⟨.code (Function.update_self ..) hrow hused hgrant, Nat.lt_succ_self _⟩
  | consumeRefreshToken token =>
    obtain ⟨row, hrow, hused, hgrant⟩ := h
    simp only [World.act, hrow, hused, if_true]
    exact ⟨.refreshToken (Function.update_self ..) hrow hused hgrant, Nat.lt_succ_self _⟩
  | _ => cases h

/-- A presented replay stays detected, or is further, while no row is deleted. -/
theorem detected_after (events : List Event) (hspared : ∀ event ∈ events, event.spares = true) (hs : Sound deps w)
    (hn : n < w.nextId) (h : w.Detects grantId n ∨ w.Owes grantId n) :
    n < (w.after deps events).nextId ∧ ((w.after deps events).Detects grantId n ∨ (w.after deps events).Owes grantId n) := by
  induction events generalizing w with
  | nil => exact ⟨hn, h⟩
  | cons event rest ih =>
    refine ih (fun e he => hspared e (List.mem_cons_of_mem _ he)) ((act_changes w event).sound hs)
      (hn.trans_le (act_changes w event).nextId_le) ?_
    rcases h with h | h
    · by_cases hlook : event = .lookUp n
      · subst hlook
        exact .inr (detects_lookUp hn h)
      · exact .inl (hs.detects hn h (hspared event List.mem_cons_self) hlook)
    · exact .inr (hs.owes h event)

theorem owes_after (events : List Event) (hs : Sound deps w) (h : w.Owes grantId n) : (w.after deps events).Owes grantId n := by
  induction events generalizing w with
  | nil => exact h
  | cons event rest ih => exact ih ((act_changes w event).sound hs) (hs.owes h event)

/-- A spent code or refresh token presented again ends its grant: whatever the steps of other requests
    between, once the replay's own lookup and revocation are taken a token is signed for it only where
    the exchange had read the grant twice before. -/
theorem replay_ends_family (deps : Deps) (before first second last : List Event) (replay : Event) (grantId : Nat)
    (h : (init.after deps before).Replays grantId replay) (hspared : ∀ event ∈ first, event.spares = true) :
    let n := (init.after deps before).nextId
    let cut := init.after deps (before ++ replay :: (first ++ .lookUp n :: second))
    ∀ m ∈ (cut.after deps (.revokeGrant n :: last)).minted, m.x.spent.grantId = grantId → cut.Past m := by
  intro n cut
  have hsound : Sound deps cut := after_sound _
  have hpresented : Sound deps ((init.after deps before).act deps replay) := (act_changes _ replay).sound (after_sound before)
  obtain ⟨hdetects, hn⟩ := detects_replay h
  have hfirst := detected_after first hspared hpresented hn (.inl hdetects)
  generalize hw : ((init.after deps before).act deps replay).after deps first = w at hfirst
  have hw' : Sound deps w := by
    rw [← hw]
    exact after_of_step (fun _ _ hs h => h.sound hs) first hpresented
  have hlook : (w.act deps (.lookUp n)).Owes grantId n := by
    rcases hfirst.2 with h | h
    · exact detects_lookUp hfirst.1 h
    · exact hw'.owes h _
  have howes : cut.Owes grantId n := by
    have hcut : cut = (w.act deps (.lookUp n)).after deps second := by
      rw [← hw]
      simp [cut, World.after]
    rw [hcut]
    exact owes_after second ((act_changes w _).sound hw') hlook
  rcases howes with ⟨hjob, -⟩ | hclosed
  · obtain ⟨hclosed, hpast⟩ := hsound.ends (.revokeGrant n) hjob
    exact fun m hm hsame => hpast m (closed_after last ((act_changes _ _).sound hsound) hclosed m hm hsame)
  · exact closed_after (.revokeGrant n :: last) hsound hclosed

theorem replayed_in_time :
    ¬ ∃ m ∈ (init.after ⟨id, id⟩
      (redeemed ++ [.consumeCode 1 "" "" "" "" true 2, .lookUp 3, .revokeGrant 3, .readAgain 2, .mint 2 true])).minted,
      m.x.spent.grantId = 0 := by
  rintro ⟨m, hm, hgrant⟩
  have hpast :=
    replay_ends_family ⟨id, id⟩ redeemed [] [] [.readAgain 2, .mint 2 true] (.consumeCode 1 "" "" "" "" true 2) 0
      ⟨_, rfl, rfl, rfl⟩
    (by simp) m hm hgrant
  exact redeemed_not_past m (past_addJob (j := .replayedCode 1) (past_setJob hpast (by simp)) (by simp))

/-! ## What a signed token says -/

/-- What lasts until then is there beyond `t`. -/
def Beyond (t : Nat) (end_ : Option Nat) : Prop := ∀ u, end_ = some u → t < u

/-- Something held supports the entry beyond `t`. -/
def Supported (held : List HeldEntry) (t : Nat) (entry : PermissionEntry) : Prop :=
  ∃ h ∈ held, supports h entry = true ∧ Beyond t h.until_

theorem beyond_none (t : Nat) : Beyond t none := fun _ h => (by cases h)

theorem beyond_some {u : Nat} : Beyond t (some u) ↔ t < u := by simp [Beyond]

theorem supported_cons {h : HeldEntry} {held : List HeldEntry} {entry : PermissionEntry} :
    Supported (h :: held) t entry ↔ (supports h entry = true ∧ Beyond t h.until_) ∨ Supported held t entry := by
  simp [Supported]

theorem latestSupport_beyond (entry : PermissionEntry) (latest : Option (Option Nat)) (held : List HeldEntry) (t : Nat) :
    (∃ u, latestSupport entry latest held = some u ∧ Beyond t u) ↔ (∃ u, latest = some u ∧ Beyond t u) ∨
    Supported held t entry := by
  fun_induction latestSupport entry latest held with
  | case1 latest => simp [Supported]
  | case2 latest held rest hnot ih => simp_all [supported_cons]
  | case3 latest held rest hsupports huntil ih => simp_all [supported_cons, beyond_none]
  | case4 held rest hsupports _ huntil ih => simp_all [supported_cons, beyond_none]
  | case5 held rest hsupports _ huntil ih => simp_all [supported_cons]
  | case6 held rest hsupports t' l huntil ih =>
    have hmax : t < max l t' ↔ t < l ∨ t < t' := by omega
    simp_all [supported_cons, beyond_some, or_assoc]

theorem authorityDeadline_beyond (held : List HeldEntry) {now : Nat} (hnow : now ≤ t) (deadline : Option Nat)
    (carried : List PermissionEntry) :
    Beyond t (authorityDeadline held now deadline carried) ↔ Beyond t deadline ∧ ∀ entry ∈ carried, Supported held t entry := by
  have hsupported : ∀ entry, Supported held t entry ↔ Beyond t ((latestSupport entry none held).getD (some now)) := by
    intro entry
    have hlatest := latestSupport_beyond entry none held t
    cases hs : latestSupport entry none held with
    | none =>
      rw [hs] at hlatest
      simp only [Option.getD_none, beyond_some, reduceCtorEq, false_and, exists_false, false_or, false_iff] at hlatest ⊢
      exact ⟨fun h => absurd h hlatest, fun h => absurd h (by omega)⟩
    | some u =>
      rw [hs] at hlatest
      simpa using hlatest.symm
  fun_induction authorityDeadline held now deadline carried with
  | case1 => simp
  | case2 entry rest deadline hs ih =>
    refine ih.trans ?_
    rw [List.forall_mem_cons, hsupported entry, hs]
    simp [beyond_none]
  | case3 entry rest u hs ih =>
    refine ih.trans ?_
    rw [List.forall_mem_cons, hsupported entry, hs]
    simp [beyond_none]
  | case4 entry rest u d hs ih =>
    refine ih.trans ?_
    rw [List.forall_mem_cons, hsupported entry, hs, beyond_some, beyond_some, beyond_some, ← and_assoc]
    have hmin : t < (if u < d then u else d) ↔ t < d ∧ t < u := by split <;> omega
    rw [hmin]

/-- Before the deadline, and only before it, everything carried still has support. -/
theorem authorityDeadline_exact (held : List HeldEntry) (now t : Nat) (carried : List PermissionEntry) (hnow : now ≤ t) :
    (∀ d, authorityDeadline held now none carried = some d → t < d) ↔ ∀ entry ∈ carried, Supported held t entry := by
  have h := authorityDeadline_beyond held hnow none carried
  rw [and_iff_right (beyond_none t)] at h
  exact h

theorem supported_until_seventeen : Supported [⟨"*", none, some 9⟩, ⟨"read", none, some 18⟩] 17 ⟨"read", none⟩ :=
  (authorityDeadline_exact [⟨"*", none, some 9⟩, ⟨"read", none, some 18⟩] 5 17 [⟨"read", none⟩] (by decide)).mp (by decide) _
    List.mem_cons_self

theorem parseOAuthScopes_eq_some {scopes parsed : List String} (h : parseOAuthScopes scopes = some parsed) : parsed = scopes := by
  unfold parseOAuthScopes at h
  split at h
  · exact (Option.some.inj h).symm
  · cases h

/-- What `grantAuthority` found, where it answers. -/
structure Found (read : Reads) (grant : Grant) (ceiling : List KeyGrant) : Prop where
  configured : ∃ config resource, read.config = some config ∧ grant.clientId ∈ config.clients ∧ resource ∈ config.resources ∧
    resource.resource = grant.resource ∧ resource.app = grant.app ∧ scopeCeiling resource grant.scopes = some ceiling
  session : ∃ session, read.session = some session ∧ session.app = none ∧ session.principalId = grant.principalId ∧
    session.usable = true
  principal : ∃ principal, read.principal = some principal ∧ principal.id = grant.principalId ∧ principal.isUser = true ∧
    principal.active = true

theorem grantAuthority_found {read : Reads} {grant : Grant} {now : Nat} {authority : Authority}
    (h : grantAuthority read grant now = some authority) :
    ∃ ceiling, Found read grant ceiling ∧ authority = ⟨grant.principalId, grant.scopes,
      narrowPermissions read.live.permissions ceiling,
      authorityDeadline read.live.supports now none (entriesOf (narrowPermissions read.live.permissions ceiling))⟩ := by
  simp only [grantAuthority, Option.bind_eq_bind, Option.bind_eq_some_iff, Option.guard_eq_some'] at h
  obtain ⟨config, hconfig, _, -, resource, hresource, _, hclient, scopes, hscopes, ceiling, hceiling, session, hsession, _, hown,
    principal, hprincipal, _, hactive, h⟩ := h
  obtain rfl := parseOAuthScopes_eq_some hscopes
  have hnames : resource.resource = grant.resource ∧ resource.app = grant.app := by simpa using List.find?_some hresource
  refine ⟨ceiling, ⟨⟨config, resource, hconfig, hclient, List.mem_of_find?_eq_some hresource, hnames.1, hnames.2, hceiling⟩,
    ⟨session, hsession, hown⟩, ⟨principal, hprincipal, hactive⟩⟩, ?_⟩
  rw [← hactive.1]
  exact (Option.some.inj h).symm

theorem permits_narrowPermissions {live : List ResolvedEntry} {ceiling : List KeyGrant} {action : String} {scope : Option Scope}
    (h : permits (entriesOf (narrowPermissions live ceiling)) action scope = true) :
    permits (entriesOf live) action scope = true ∧ permits (ceiling.map KeyGrant.entry) action scope = true := by
  obtain ⟨entry, hentry, hgrants⟩ := permits_iff.mp h
  obtain ⟨e, he, rfl⟩ := List.mem_map.mp hentry
  exact (permits_overlaps live ceiling action scope).mp
    (permits_iff.mpr ⟨e.entry, List.mem_map_of_mem (mem_narrowPermissions.mp he).mem, hgrants⟩)

/-- What was presented is what was consented to, and the token says no more than that, than its
    holder may at the time, or than the scopes do. -/
structure Rightful (deps : Deps) (consents : Table Consent) (m : Minted) (grant : Grant) (code : Code)
    (ceiling : List KeyGrant) : Prop where
  consent : consents m.x.spent.grantId = some ⟨grant, code⟩
  found : Found m.read grant ceiling
  presented : m.x.clientId = grant.clientId ∧ m.x.resource = grant.resource
  code : ∀ row verifier redirectUri, m.x.spent = .code row verifier redirectUri → row = code ∧
    deps.hashToken (deps.pkceChallenge verifier) = deps.hashToken row.challenge ∧ row.redirectUri = redirectUri ∧
      m.x.now < row.expiresAt
  named : m.access.subject = grant.principalId ∧ m.access.clientId = grant.clientId ∧ m.access.app = grant.app ∧
    m.access.resource = grant.resource ∧ m.access.scopes = grant.scopes
  permits : ∀ action scope, permits (entriesOf m.access.permissions) action scope = true →
    permits (entriesOf m.read.live.permissions) action scope = true ∧ permits (ceiling.map KeyGrant.entry) action scope = true
  expires : m.access.expiresAt ≤ m.x.now + DEFAULT_TOKEN_TTL_SECONDS ∧ m.access.expiresAt ≤ grant.expiresAt
  supported : ∀ t, m.x.now ≤ t → t < m.access.expiresAt → ∀ entry ∈ entriesOf m.access.permissions,
    Supported m.read.live.supports t entry

theorem Minted.Sound.rightful {consents : Table Consent} (h : m.Sound deps consents) :
    ∃ grant code ceiling, Rightful deps consents m grant code ceiling := by
  obtain ⟨grant, authority, hauthorized, haccess⟩ := h
  obtain ⟨ceiling, hfound, rfl⟩ := grantAuthority_found hauthorized.authority
  obtain ⟨⟨given, code⟩, hconsent, rfl, hof⟩ := hauthorized.consent
  have haccepts := hauthorized.accepts
  simp only [Exchange.accepts, Bool.and_eq_true, decide_eq_true_eq] at haccepts
  obtain ⟨⟨hclient, hresource⟩, hspent⟩ := haccepts
  refine ⟨{ grant with revoked := false }, code, ceiling, hconsent, ⟨hfound.configured, hfound.session, hfound.principal⟩,
    ⟨hclient.symm, hresource.symm⟩, fun row verifier redirectUri hspentCode => ?_, ?_, ?_, ?_, ?_⟩
  · rw [hspentCode] at hspent
    simp only [Bool.and_eq_true, decide_eq_true_eq] at hspent
    exact ⟨hof row verifier redirectUri hspentCode, hspent.1.1, hspent.2, hspent.1.2⟩
  · rw [haccess]
    exact ⟨rfl, rfl, rfl, rfl, rfl⟩
  · rw [haccess]
    exact fun action scope => permits_narrowPermissions
  · rw [haccess]
    simp only [accessToken]
    omega
  · intro t hnow hbefore
    rw [haccess] at hbefore ⊢
    have hdeadline := authorityDeadline_beyond m.read.live.supports hnow none
      (entriesOf (narrowPermissions m.read.live.permissions ceiling))
    refine (hdeadline.mp fun u hu => ?_).2
    simp only [accessToken, hu, Option.getD_some] at hbefore
    omega

/-- Every token ever signed is rightful. -/
def Rightly (deps : Deps) (w : World) : Prop :=
  ∀ m ∈ w.minted, ∃ grant code ceiling, Rightful deps w.consents m grant code ceiling

theorem minted_rightly (deps : Deps) (events : List Event) : Rightly deps (init.after deps events) :=
  fun m hm => ((after_sound events).minted m hm).rightful

end Fabrika.Iam.OAuth
