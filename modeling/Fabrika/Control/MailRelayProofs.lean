/-
  Fabrika.Control.MailRelayProofs — the relay settles each claim once (see `Fabrika.Control.Mail`).

  A claim is known to the database by the message's state and its attempt number. Between two requeues
  the number counts the claims, so a consumer whose number matches writes to its own claim (`Tracks`);
  a requeue starts the count anew, and a consumer from before it can match a claim made behind it.
  Over a transport that is not idempotent only one consumer at a time holds a message (`Single`).
-/

import Fabrika.Control.MailProofs

namespace Fabrika.Control.Mail

variable {deps : Deps} {w : World} {event : Event}

/-! ## What a step logs -/

/-- The outcome job `j` is about to write, and of which attempt. -/
def writes (deps : Deps) (w : World) (j : Nat) : Option (Attempt × Settled) :=
  match w.jobs j with
  | some (.settling a settled) => some (a, settled)
  | some (.stale a) =>
    if deps.sender = some true ∧ a.attempt < MAIL_MAX_ATTEMPTS then none else some (a, .unknown MAIL_DISPATCH_INTERRUPTED)
  | _ => none

/-- The outcomes a step records. -/
def outcomesOf (deps : Deps) (w : World) : Event → List Outcome
  | .goesOn j now =>
    match writes deps w j with
    | some (a, settled) =>
    if ((w.rows a.id).bind (settle settled a.attempt now)).isSome then [⟨a.id, w.claims a.id, a.claim⟩] else []
    | none => []
  | _ => []

theorem settles_outcomes (j : Nat) (a : Attempt) (settled : Settled) (now : Nat) :
    (w.settles j a settled now).outcomes = w.outcomes ++
    if ((w.rows a.id).bind (settle settled a.attempt now)).isSome then [⟨a.id, w.claims a.id, a.claim⟩] else [] := by
  unfold World.settles World.update
  cases hr : (w.rows a.id).bind (settle settled a.attempt now) with
  | none => exact (List.append_nil _).symm
  | some r => rfl

theorem updated_logs (id : Nat) (statement : MailMessageRow → Option MailMessageRow) :
    (w.updated id statement).outcomes = w.outcomes ∧ (w.updated id statement).handed = w.handed ∧
      (w.updated id statement).answers = w.answers := by
  unfold World.updated
  cases hw : w.update id statement with
  | none => exact ⟨rfl, rfl, rfl⟩
  | some w' =>
    obtain ⟨_, _, _, _, rfl⟩ := update_eq_some hw
    exact ⟨rfl, rfl, rfl⟩

variable {j : Nat} {job : Job} {a : Attempt} {settled : Settled}

variable {now : Nat}

theorem goesOn_outcomes (hjob : w.jobs j = some job) :
    (w.goesOn deps j now job).outcomes = w.outcomes ++ outcomesOf deps w (.goesOn j now) := by
  simp only [outcomesOf, writes, hjob]
  cases job with
  | inserting id input at_ =>
    simp only [World.goesOn, World.setJob, World.dropUpload, List.append_nil]
    rw [insertMessage_eq]
    repeat' split
    all_goals rfl
  | finding id input =>
    simp only [World.goesOn, World.setJob, World.answer, List.append_nil]
    split
    · rfl
    · split <;> rfl
  | claiming id row at_ =>
    simp only [World.goesOn, List.append_nil]
    split
    · rfl
    · next hw =>
      obtain ⟨_, _, _, _, rfl⟩ := update_eq_some hw
      rfl
  | stale a =>
    simp only [World.goesOn]
    split
    · simp only [List.append_nil]
      split
      · rfl
      · next hw =>
        obtain ⟨_, _, _, _, rfl⟩ := update_eq_some hw
        rfl
    · exact settles_outcomes j a _ now
  | settling a settled => exact settles_outcomes j a settled now
  | unnaming id rest => exact ((updated_logs id clearContentRef).1).trans (List.append_nil _).symm
  | uploading | putting | discarding | discarded | clearing | selecting | deleting | collecting | unnamed | collected | reading
  | sending =>
    exact (List.append_nil _).symm

theorem step_outcomes (deps : Deps) (w : World) (event : Event) :
    (w.step deps event).outcomes = w.outcomes ++ outcomesOf deps w event := by
  cases event with
  | goesOn j now =>
    simp only [World.step]
    split
    · next hnone => simp [outcomesOf, writes, hnone]
    · next hjob => exact goesOn_outcomes hjob
  | release id now => exact ((updated_logs id _).1).trans (List.append_nil _).symm
  | drop id now => exact ((updated_logs id _).1).trans (List.append_nil _).symm
  | requeue id now =>
    simp only [World.step, outcomesOf, List.append_nil]
    split
    · rfl
    · next hw =>
      obtain ⟨_, _, _, _, rfl⟩ := update_eq_some hw
      rfl
  | replay sender idempotencyKey fingerprint =>
    simp only [World.step, outcomesOf, World.answer, List.append_nil]
    split
    · rfl
    · split <;> rfl
  | accept | dispatchMail | collectUploads | readsContent | handsOver =>
    simp only [World.step, outcomesOf, List.append_nil]
    split <;> rfl
  | purge | crash => exact (List.append_nil _).symm

/-- A step hands over nothing, or the message of the consumer at its send. -/
theorem step_handed (deps : Deps) (w : World) (event : Event) : (w.step deps event).handed = w.handed ∨
    ∃ j now delivery a, event = .handsOver j now delivery ∧ w.jobs j = some (.sending a) ∧
      (w.step deps event).handed = w.handed ++ [⟨a.id, (w.rows a.id).map (·.state), delivery⟩] := by
  cases event with
  | goesOn j now =>
    left
    simp only [World.step]
    split
    · rfl
    · exact goesOn_frame.2.2
  | release id now => exact .inl (updated_logs id _).2.1
  | drop id now => exact .inl (updated_logs id _).2.1
  | requeue id now =>
    left
    simp only [World.step]
    split
    · rfl
    · next hw =>
      obtain ⟨_, _, _, _, rfl⟩ := update_eq_some hw
      rfl
  | replay sender idempotencyKey fingerprint =>
    left
    simp only [World.step, World.answer]
    split
    · rfl
    · split <;> rfl
  | handsOver j now delivery =>
    simp only [World.step]
    split
    · next a hjob => exact .inr ⟨j, now, delivery, a, rfl, hjob, rfl⟩
    · exact .inl rfl
  | accept | dispatchMail | collectUploads | readsContent =>
    left
    simp only [World.step]
    split <;> rfl
  | purge | crash => exact .inl rfl

/-- An accepted answer names the message found under its key. -/
theorem step_answers {answer : Answer} (h : answer ∈ (w.step deps event).answers) :
    answer ∈ w.answers ∨ w.find answer.sender answer.idempotencyKey = some answer.messageId := by
  have hanswer {sender idempotencyKey fingerprint : String} {id : Nat} (hfind : w.find sender idempotencyKey = some id)
      (h : answer ∈ (w.answer sender idempotencyKey fingerprint id).answers) :
      answer ∈ w.answers ∨ w.find answer.sender answer.idempotencyKey = some answer.messageId := by
    unfold World.answer at h
    split at h
    · rcases List.mem_append.mp h with h | h
      · exact .inl h
      · obtain rfl := List.mem_singleton.mp h
        exact .inr hfind
    · exact .inl h
  have hsettles {j now : Nat} (a : Attempt) (settled : Settled) : (w.settles j a settled now).answers = w.answers := by
    unfold World.settles
    split
    · rfl
    · next hw =>
      obtain ⟨_, _, _, _, rfl⟩ := update_eq_some hw
      rfl
  cases event with
  | goesOn j now =>
    simp only [World.step] at h
    split at h
    · exact .inl h
    · next job hjob =>
      cases job with
      | inserting id input at_ =>
        left
        simp only [World.goesOn, World.setJob, World.dropUpload] at h
        rw [insertMessage_eq] at h
        repeat' split at h
        all_goals exact h
      | finding id input =>
        simp only [World.goesOn] at h
        split at h
        · exact .inl h
        · next found hfound => exact hanswer hfound h
      | claiming id row at_ =>
        simp only [World.goesOn] at h
        split at h
        · exact .inl h
        · next hw =>
          obtain ⟨_, _, _, _, rfl⟩ := update_eq_some hw
          exact .inl h
      | stale a =>
        simp only [World.goesOn] at h
        split at h
        · split at h
          · exact .inl h
          · next hw =>
            obtain ⟨_, _, _, _, rfl⟩ := update_eq_some hw
            exact .inl h
        · exact .inl (hsettles a _ ▸ h)
      | settling a settled => exact .inl (hsettles a settled ▸ h)
      | unnaming id rest => exact .inl ((updated_logs id clearContentRef).2.2 ▸ h)
      | uploading | putting | discarding | discarded | clearing | selecting | deleting | collecting | unnamed | collected
      | reading | sending =>
        exact .inl h
  | release id now => exact .inl ((updated_logs id _).2.2 ▸ h)
  | drop id now => exact .inl ((updated_logs id _).2.2 ▸ h)
  | requeue id now =>
    simp only [World.step] at h
    split at h
    · exact .inl h
    · next hw =>
      obtain ⟨_, _, _, _, rfl⟩ := update_eq_some hw
      exact .inl h
  | replay sender idempotencyKey fingerprint =>
    simp only [World.step] at h
    split at h
    · exact .inl h
    · next found hfound => exact hanswer hfound h
  | accept | dispatchMail | collectUploads | readsContent | handsOver =>
    simp only [World.step] at h
    split at h <;> exact .inl h
  | purge | crash => exact .inl h

/-! ## Attempts and claims -/

/-- The attempt a consumer claimed. -/
def Job.attempt : Job → Option Attempt
  | .reading a => some a
  | .sending a => some a
  | .settling a _ => some a
  | _ => none

/-- The attempt a consumer claimed or found stale. -/
def Job.ticket : Job → Option Attempt
  | .stale a => some a
  | job => job.attempt

/-- Unless the message was requeued since, its attempt number has kept pace with its claims. -/
def Tracks (w : World) (a : Attempt) : Prop :=
  ∃ r, w.rows a.id = some r ∧ r.state ≠ .held ∧ r.state ≠ .dropped ∧ a.claim ≤ w.claims a.id ∧ a.requeues ≤ w.requeues a.id ∧
    (a.requeues = w.requeues a.id → r.attempts + a.claim = w.claims a.id + a.attempt) ∧
    (a.requeues < w.requeues a.id → a.claim = w.claims a.id → r.state = .queued)

theorem Tracks.step {a : Attempt} (h : Tracks w a) (hfiled : Filed w) : Tracks (w.step deps event) a := by
  obtain ⟨r, hr, hheld, hdropped, hclaim, hrequeues, hpace, hbehind⟩ := h
  have hturn := step_row deps w event a.id
  unfold Tracks
  generalize (w.step deps event).rows a.id = row, (w.step deps event).claims a.id = c,
    (w.step deps event).requeues a.id = q at hturn ⊢
  cases hturn with
  | keeps => exact ⟨r, hr, hheld, hdropped, hclaim, hrequeues, hpace, hbehind⟩
  | inserts _ hjob _ =>
    obtain ⟨_, hnone, _⟩ := hfiled.inserts _ _ a.id _ hjob rfl
    rw [hr] at hnone
    cases hnone
  | decides hr' _ hstatement =>
    rw [hr] at hr'
    cases hr'
    exact absurd (decide_eq_some hstatement).1 hheld
  | requeues _ hr' hstatement =>
    rw [hr] at hr'
    cases hr'
    obtain ⟨_, _, rfl⟩ := requeue_eq_some hstatement
    exact ⟨_, rfl, nofun, nofun, hclaim, by omega, fun heq => by omega, fun _ _ => rfl⟩
  | claims _ _ hr' hstatement =>
    rw [hr] at hr'
    cases hr'
    obtain ⟨_, _, rfl⟩ := claim_eq_some hstatement
    refine ⟨_, rfl, nofun, nofun, by omega, hrequeues, fun heq => ?_, fun _ heq => by omega⟩
    have hkept := hpace heq
    dsimp only
    omega
  | reclaims _ _ _ _ hr' hstatement =>
    rw [hr] at hr'
    cases hr'
    obtain ⟨_, _, rfl⟩ := reclaim_eq_some hstatement
    refine ⟨_, rfl, hheld, hdropped, by omega, hrequeues, fun heq => ?_, fun _ heq => by omega⟩
    have hkept := hpace heq
    dsimp only
    omega
  | settles _ _ _ hr' hstatement =>
    rw [hr] at hr'
    cases hr'
    obtain ⟨hsending, _, hstate, hattempts, _⟩ := settle_eq_some hstatement
    refine ⟨_, rfl, ?_, ?_, hclaim, hrequeues, fun heq => hattempts ▸ hpace heq, fun hlt heq => ?_⟩
    · rw [hstate]; cases ‹Settled› <;> nofun
    · rw [hstate]; cases ‹Settled› <;> nofun
    · rw [hbehind hlt heq] at hsending
      cases hsending
  | clears hr' hstatement _ =>
    rw [hr] at hr'
    cases hr'
    obtain ⟨_, hstate, hattempts, _⟩ := clears_eq_some hstatement
    exact ⟨_, rfl, hstate ▸ hheld, hstate ▸ hdropped, hclaim, hrequeues, fun heq => hattempts ▸ hpace heq,
      fun hlt heq => hstate ▸ hbehind hlt heq⟩

/-- A consumer that reads behind a claim made it, by the step that put it there. -/
theorem claims_step {old : Job} (hjob : w.jobs j = some old) (hclaims : old.attempt = none)
    (hreads : (w.step deps (.goesOn j now)).jobs j = some (.reading a)) :
    ∃ r r', w.rows a.id = some r ∧ (w.step deps (.goesOn j now)).rows a.id = some r' ∧ r'.state = .sending ∧
    r'.attempts = a.attempt ∧
      (w.step deps (.goesOn j now)).claims a.id = a.claim ∧ (w.step deps (.goesOn j now)).requeues a.id = a.requeues ∧
      (deps.sender ≠ some true → r.state = .queued) := by
  have hnext : (w.goesOn deps j now old).jobs = Function.update w.jobs j (nextJob deps w now old) := goesOn_jobs now hjob
  simp only [World.step, hjob] at hreads ⊢
  have hreads' := hreads
  rw [hnext, Function.update_self] at hreads'
  cases nextJob_next hreads' with
  | reading => cases hclaims
  | claims hr hstatement =>
    rename_i id at_ row r r'
    have hw : w.update id (claim row.attempts at_) = some { w with rows := Function.update w.rows id (some r') } := by
      rw [World.update, hr, Option.bind_some, hstatement, Option.map_some]
    obtain ⟨hqueued, hattempts, rfl⟩ := claim_eq_some hstatement
    simp only [World.goesOn, hw]
    refine ⟨r, _, hr, Function.update_self _ _ _, rfl, congrArg (· + 1) hattempts, Function.update_self _ _ _, rfl,
      fun _ => hqueued⟩
  | reclaims hsender _ _ =>
    rename_i a
    simp only [nextJob] at hreads'
    split at hreads'
    · next hagain =>
      obtain ⟨w', hw, _⟩ := Option.map_eq_some_iff.mp hreads'
      have hw' := hw
      obtain ⟨r, r', hr, hstatement, rfl⟩ := update_eq_some hw
      obtain ⟨hsending, hattempts, rfl⟩ := reclaim_eq_some hstatement
      simp only [World.goesOn, if_pos hagain, hw']
      exact ⟨r, _, hr, Function.update_self _ _ _, hsending, congrArg (· + 1) hattempts, Function.update_self _ _ _, rfl,
        fun h => absurd hsender h⟩
    · next hnot =>
      obtain ⟨_, _, hclear⟩ := Option.bind_eq_some_iff.mp hreads'
      split at hclear <;> cases hclear

def Tickets (w : World) : Prop := ∀ j job a, w.jobs j = some job → job.ticket = some a → Tracks w a

theorem ticket_of_attempt (h : job.attempt = some a) : job.ticket = some a := by
  cases job with
  | reading | sending | settling => exact h
  | _ => cases h

/-- A consumer's claim was its own in the state before, or is the one the step made. -/
theorem attempt_turn (hjob : (w.step deps event).jobs j = some job) (ha : job.attempt = some a) :
    (∃ old, w.jobs j = some old ∧ old.attempt = some a ∧ ∀ now, event = .goesOn j now → ∀ settled, old ≠ .settling a settled) ∨
    (∃ now old, event = .goesOn j now ∧ w.jobs j = some old ∧ old.attempt = none ∧ job = .reading a) := by
  cases step_job hjob with
  | keeps hold hgoes _ => exact .inl ⟨job, hold, ha, fun now he => absurd he (hgoes now)⟩
  | accepts _ _ _ hnew => rcases hnew with rfl | ⟨rfl, _⟩ <;> cases ha
  | dispatches _ _ hdispatches => rcases dispatches_insert hdispatches with ⟨rfl, _⟩ | ⟨rfl, _⟩ <;> cases ha
  | purges _ => cases ha
  | collects _ _ => cases ha
  | next hevent hold hnext =>
    cases hnext with
    | reading => exact .inl ⟨_, hold, ha, fun _ _ _ => nofun⟩
    | sending => exact .inl ⟨_, hold, ha, fun _ _ _ => nofun⟩
    | claims _ _ =>
      cases ha
      exact .inr ⟨_, _, hevent, hold, rfl, rfl⟩
    | reclaims _ _ _ =>
      cases ha
      exact .inr ⟨_, _, hevent, hold, rfl, rfl⟩
    | _ => cases ha
  | reads hevent hold hnew =>
    refine .inl ⟨_, hold, ?_, fun _ _ _ => nofun⟩
    rcases hnew with rfl | rfl <;> exact ha
  | hands hevent hold hsettled => exact .inl ⟨_, hold, ha, fun _ _ _ => nofun⟩

theorem tickets_step (h : Tickets w) (hfiled : Filed w) : Tickets (w.step deps event) := by
  intro j job a hjob hticket
  by_cases hattempt : job.attempt = some a
  · rcases attempt_turn hjob hattempt with ⟨old, hold, hold', _⟩ | ⟨now, old, rfl, hold, hnone, rfl⟩
    · exact (h j old a hold (ticket_of_attempt hold')).step hfiled
    · obtain ⟨_, r', _, hr', hstate, hattempts, hclaims, hrequeues, _⟩ := claims_step hold hnone hjob
      refine ⟨r', hr', ?_, ?_, by omega, by omega, fun _ => by omega, fun hlt => by omega⟩
      · rw [hstate]; nofun
      · rw [hstate]; nofun
  · -- Only a consumer that found the claim stale has a ticket without an attempt of its own.
    obtain ⟨rfl⟩ : job = .stale a := by
      cases job with
      | stale => exact congrArg Job.stale (Option.some.inj hticket)
      | reading | sending | settling => exact absurd hticket hattempt
      | _ => cases hticket
    cases step_job hjob with
    | keeps hold _ _ => exact (h j _ a hold rfl).step hfiled
    | accepts _ _ _ hnew => rcases hnew with hnew | ⟨hnew, _⟩ <;> cases hnew
    | dispatches _ hr hdispatches =>
      rcases dispatches_insert hdispatches with ⟨hnew, _⟩ | ⟨hnew, hsending⟩
      · cases hnew
      · cases hnew
        refine Tracks.step ⟨_, hr, ?_, ?_, Nat.le_refl _, Nat.le_refl _, fun _ => Nat.add_comm _ _,
          fun hlt => absurd hlt (Nat.lt_irrefl _)⟩ hfiled
        · rw [hsending]; nofun
        · rw [hsending]; nofun
    | next _ _ hnext => cases hnext
    | reads _ _ hnew => rcases hnew with hnew | hnew <;> cases hnew

/-! ## The condition -/

/-- The message was not requeued since the consumer claimed it or found its claim stale, or is under no claim of that number. -/
def InTime (w : World) (a : Attempt) : Prop :=
  a.requeues = w.requeues a.id ∨ ∀ r, w.rows a.id = some r → ¬(r.state = .sending ∧ r.attempts = a.attempt)

/-- No consumer records an outcome for an attempt number that a claim behind a requeue uses again. -/
def Meets (deps : Deps) (w : World) : Event → Prop
  | .goesOn j _ => ∀ a settled, writes deps w j = some (a, settled) → InTime w a
  | _ => True

def MeetsAll (deps : Deps) (w : World) : List Event → Prop
  | [] => True
  | event :: rest => Meets deps w event ∧ MeetsAll deps (w.step deps event) rest

theorem writes_ticket (h : writes deps w j = some (a, settled)) : ∃ job, w.jobs j = some job ∧ job.ticket = some a := by
  unfold writes at h
  split at h
  · next hjob =>
    cases h
    exact ⟨_, hjob, rfl⟩
  · next hjob =>
    split at h
    · cases h
    · cases h
      exact ⟨_, hjob, rfl⟩
  · cases h

theorem settle_isSome {attempt : Nat} {row : Option MailMessageRow} :
    (row.bind (settle settled attempt now)).isSome = true ↔ ∃ r, row = some r ∧ r.state = .sending ∧ r.attempts = attempt := by
  cases row with
  | none => simp
  | some r =>
    simp only [Option.bind_some, settle, Bool.and_eq_true, decide_eq_true_eq, beq_iff_eq, Option.some.injEq, exists_eq_left']
    split
    · next h => simpa using h
    · next h => simpa using h

/-- The condition is exactly that the step records outcomes of the claims the messages are under. -/
theorem meets_iff (h : Tickets w) : Meets deps w event ↔ ∀ outcome ∈ outcomesOf deps w event, outcome.by_ = outcome.claim := by
  cases event with
  | goesOn j now =>
    simp only [Meets, outcomesOf]
    cases hwrites : writes deps w j with
    | none => simp
    | some write =>
      obtain ⟨a, settled⟩ := write
      obtain ⟨job, hjob, hticket⟩ := writes_ticket hwrites
      obtain ⟨r, hr, _, _, hclaim, hrequeues, hpace, hbehind⟩ := h j job a hjob hticket
      have hmatch : ((w.rows a.id).bind (settle settled a.attempt now)).isSome = true ↔ r.state = .sending ∧
          r.attempts = a.attempt := by
        rw [settle_isSome, hr]
        exact ⟨fun ⟨_, hsome, hmatch⟩ => by cases hsome; exact hmatch, fun hmatch => ⟨r, rfl, hmatch⟩⟩
      constructor
      · intro hmeets outcome hmem
        have hin := hmeets a settled rfl
        dsimp only at hmem
        split at hmem
        · next hsome =>
          obtain ⟨hsending, hattempts⟩ := hmatch.mp hsome
          obtain rfl := List.mem_singleton.mp hmem
          rcases hin with heq | hnot
          · have hkept := hpace heq
            dsimp only
            omega
          · exact absurd ⟨hsending, hattempts⟩ (hnot r hr)
        · cases hmem
      · intro hright a' settled' heq
        cases heq
        by_cases hnow : a.requeues = w.requeues a.id
        · exact .inl hnow
        · refine .inr fun r' hr' hsame => ?_
          rw [hr] at hr'
          cases hr'
          have hby :=
            hright ⟨a.id, w.claims a.id, a.claim⟩ (by dsimp only; rw [if_pos (hmatch.mpr hsame)]; exact List.mem_singleton_self _)
          have hqueued := hbehind (by omega) hby
          rw [hsame.1] at hqueued
          cases hqueued
  | _ => simp [Meets, outcomesOf]

/-! ## A transport that is not idempotent -/

/-- The provider did not take the message. -/
def Delivery.NotSent (delivery : Delivery) : Prop := ∃ code, delivery = .error code ∧ code.classified.2 = .notSent

def Unsent (w : World) (id : Nat) : Prop := ∀ handed ∈ w.handed, handed.id = id → handed.delivery.NotSent

/-- The job may still hand its message over, or leaves it to another attempt. -/
def Job.open_ : Job → Bool
  | .reading _ => true
  | .sending _ => true
  | .settling _ (.failed _) => true
  | .settling _ (.deferred ..) => true
  | _ => false

def MailMessageState.open_ : MailMessageState → Bool
  | .held | .queued | .failed | .dropped => true
  | .sending | .sent | .unknown => false

structure Single (w : World) : Prop where
  one : ∀ j j' job job' a a', w.jobs j = some job → w.jobs j' = some job' → job.attempt = some a → job'.attempt = some a' →
    a.id = a'.id → j = j'
  busy : ∀ j job a r, w.jobs j = some job → job.attempt = some a → w.rows a.id = some r → r.state.open_ = false
  jobs : ∀ j job a, w.jobs j = some job → job.attempt = some a → job.open_ = true → Unsent w a.id
  rows : ∀ id r, w.rows id = some r → r.state.open_ = true → Unsent w id
  handed : ∀ handed ∈ w.handed, (w.rows handed.id).isSome
  again : w.handed.Pairwise fun earlier later => earlier.id = later.id → earlier.delivery.NotSent

theorem settledBy_open {attempts : Nat} {delivery : Delivery} (h : settledBy false attempts now delivery = some settled)
    (hopen : (Job.settling a settled).open_ = true) : delivery.NotSent := by
  cases delivery with
  | taken messageId =>
    cases h
    cases hopen
  | throws => cases h
  | error code =>
    simp only [settledBy, mayRetryDelivery, Bool.or_false, Bool.and_eq_true, decide_eq_true_eq] at h
    split at h
    · next hretry => exact ⟨code, rfl, hretry.1.2⟩
    · split at h
      · next hnot => exact ⟨code, rfl, hnot⟩
      · cases h
        cases hopen

/-- While a consumer is at its send, its message's row is not open: handing it over touches no other. -/
theorem Single.unsent_step (h : Single w) {id : Nat} {r : MailMessageRow} (hr : w.rows id = some r)
    (hopen : r.state.open_ = true) :
    Unsent (w.step deps event) id := by
  intro handed hmem hid
  rcases step_handed deps w event with heq | ⟨j, now, delivery, a, _, hjob, heq⟩
  · exact h.rows id r hr hopen handed (heq ▸ hmem) hid
  · rw [heq] at hmem
    rcases List.mem_append.mp hmem with hmem | hmem
    · exact h.rows id r hr hopen handed hmem hid
    · obtain rfl := List.mem_singleton.mp hmem
      obtain rfl : a.id = id := hid
      have hbusy := h.busy j _ a r hjob rfl hr
      rw [hopen] at hbusy
      cases hbusy

theorem Single.one_step (h : Single w) (hsender : deps.sender ≠ some true) {j' : Nat} {job' : Job} {a' : Attempt}
    (hjob : (w.step deps event).jobs j = some job) (hjob' : (w.step deps event).jobs j' = some job') (ha : job.attempt = some a)
    (ha' : job'.attempt = some a') (hid : a.id = a'.id) : j = j' := by
  -- A claim takes a queued message, and no consumer holds one.
  have hclaims {i i' : Nat} {old old' : Job} {b b' : Attempt} {now : Nat} (hevent : event = .goesOn i now)
      (hold : w.jobs i = some old)
      (hnone : old.attempt = none) (hnew : (w.step deps event).jobs i = some (.reading b)) (hold' : w.jobs i' = some old')
      (hb' : old'.attempt = some b') (hsame : b.id = b'.id) : False := by
    subst hevent
    obtain ⟨r, _, hr, _, _, _, _, _, hqueued⟩ := claims_step hold hnone hnew
    have hbusy := h.busy i' old' b' r hold' hb' (hsame ▸ hr)
    rw [hqueued hsender] at hbusy
    cases hbusy
  rcases attempt_turn hjob ha with ⟨old, hold, hold₁, _⟩ | ⟨now, old, hevent, hold, hnone, rfl⟩
  · rcases attempt_turn hjob' ha' with ⟨old', hold', hold₂, _⟩ | ⟨now', old', hevent', hold', hnone', rfl⟩
    · exact h.one j j' old old' a a' hold hold' hold₁ hold₂ hid
    · exact (hclaims hevent' hold' hnone' hjob' hold hold₁ hid.symm).elim
  · rcases attempt_turn hjob' ha' with ⟨old', hold', hold₂, _⟩ | ⟨now', old', hevent', hold', hnone', rfl⟩
    · exact (hclaims hevent hold hnone hjob hold' hold₂ hid).elim
    · rw [hevent] at hevent'
      cases hevent'
      rfl

theorem Single.busy_step (h : Single w) (hfiled : Filed w) (htickets : Tickets w) (hsender : deps.sender ≠ some true)
    {r' : MailMessageRow} (hjob : (w.step deps event).jobs j = some job) (ha : job.attempt = some a)
    (hr' : (w.step deps event).rows a.id = some r') : r'.state.open_ = false := by
  rcases attempt_turn hjob ha with ⟨old, hold, hold₁, hsettling⟩ | ⟨now, old, rfl, hold, hnone, rfl⟩
  · have hbusy (r : MailMessageRow) (hr : w.rows a.id = some r) : r.state.open_ = false := h.busy j old a r hold hold₁ hr
    have hturn := step_row deps w event a.id
    rw [hr'] at hturn
    generalize hrow : some r' = row, (w.step deps event).claims a.id = c, (w.step deps event).requeues a.id = q at hturn
    cases hturn with
    | keeps => exact hbusy r' hrow.symm
    | inserts _ hinserting _ =>
      obtain ⟨_, hnone, _⟩ := hfiled.inserts _ _ a.id _ hinserting rfl
      obtain ⟨r, hr, _⟩ := htickets j old a hold (ticket_of_attempt hold₁)
      rw [hnone] at hr
      cases hr
    | decides hr _ hstatement =>
      have hnot := hbusy _ hr
      rw [(decide_eq_some hstatement).1] at hnot
      cases hnot
    | requeues _ hr hstatement =>
      have hnot := hbusy _ hr
      rcases requeueable (requeue_eq_some hstatement).2.1 with hstate | ⟨_, htrue⟩
      · rw [hstate] at hnot
        cases hnot
      · exact absurd htrue hsender
    | claims _ _ hr hstatement =>
      have hnot := hbusy _ hr
      rw [(claim_eq_some hstatement).1] at hnot
      cases hnot
    | reclaims _ _ _ htrue _ _ => exact absurd htrue hsender
    | settles hevent hsettles hid hr hstatement =>
      cases hrow
      rw [(settle_eq_some hstatement).2.2.1]
      rcases hsettles with hsettling' | ⟨_, rfl, _⟩
      · -- The consumer that settles the message is the one that holds it, and it is done with it.
        obtain rfl := h.one _ j _ old _ a hsettling' hold rfl hold₁ hid
        rw [hsettling'] at hold
        cases hold
        cases hold₁
        exact absurd rfl (hsettling _ hevent _)
      · rfl
    | clears hr hstatement _ =>
      cases hrow
      rw [(clears_eq_some hstatement).2.1]
      exact hbusy _ hr
  · obtain ⟨_, r, _, hr, hstate, _⟩ := claims_step hold hnone hjob
    rw [hr'] at hr
    cases hr
    rw [hstate]
    rfl

theorem Single.jobs_step (h : Single w) (hsender : deps.sender ≠ some true) (hjob : (w.step deps event).jobs j = some job)
    (ha : job.attempt = some a) (hopen : job.open_ = true) : Unsent (w.step deps event) a.id := by
  have hfalse : decide (deps.sender = some true) = false := decide_eq_false hsender
  -- What the consumer's own step and what another's send do to the messages handed over.
  have hother {old : Job} (hold : w.jobs j = some old) (hold₁ : old.attempt = some a) (hunsent : Unsent w a.id)
      (hhands : ∀ now delivery, event = .handsOver j now delivery → (∃ b, old = .sending b) → delivery.NotSent) :
      Unsent (w.step deps event) a.id := by
    intro handed hmem hid
    rcases step_handed deps w event with heq | ⟨j', now, delivery, a', hevent, hsending, heq⟩
    · exact hunsent handed (heq ▸ hmem) hid
    · rw [heq] at hmem
      rcases List.mem_append.mp hmem with hmem | hmem
      · exact hunsent handed hmem hid
      · obtain rfl := List.mem_singleton.mp hmem
        obtain rfl := h.one j j' old _ a a' hold hsending hold₁ rfl hid.symm
        rw [hold] at hsending
        cases hsending
        exact hhands now delivery hevent ⟨_, rfl⟩
  cases step_job hjob with
  | keeps hold _ hidle =>
    refine hother hold ha (h.jobs j job a hold ha hopen) fun now delivery hevent hsending => ?_
    obtain ⟨b, rfl⟩ := hsending
    exact absurd rfl (hidle now delivery b hevent)
  | accepts _ _ _ hnew => rcases hnew with rfl | ⟨rfl, _⟩ <;> cases ha
  | dispatches _ _ hdispatches => rcases dispatches_insert hdispatches with ⟨rfl, _⟩ | ⟨rfl, _⟩ <;> cases ha
  | purges _ => cases ha
  | collects _ _ => cases ha
  | next hevent hold hnext =>
    have hgoes (now : Nat) (delivery : Delivery) (he : event = .handsOver j now delivery) : False := by
      rw [hevent] at he
      cases he
    cases hnext with
    | reading => exact hother hold ha (h.jobs j _ a hold ha rfl) fun now delivery he _ => (hgoes now delivery he).elim
    | sending => exact hother hold ha (h.jobs j _ a hold ha rfl) fun now delivery he _ => (hgoes now delivery he).elim
    | claims hr hstatement =>
      cases ha
      exact h.unsent_step hr (by rw [(claim_eq_some hstatement).1]; rfl)
    | reclaims htrue _ _ => exact absurd htrue hsender
    | _ => cases ha
  | reads hevent hold hnew =>
    rename_i b
    have hold₁ : (Job.reading b).attempt = some a := by rcases hnew with rfl | rfl <;> exact ha
    refine hother hold hold₁ (h.jobs j _ a hold hold₁ rfl) fun now delivery he _ => ?_
    rw [hevent] at he
    cases he
  | hands hevent hold hsettled =>
    refine hother hold ha (h.jobs j _ a hold ha rfl) fun now delivery he _ => ?_
    rw [hevent] at he
    cases he
    rw [hfalse] at hsettled
    exact settledBy_open hsettled hopen

theorem Single.rows_step (h : Single w) (hfiled : Filed w) (hsender : deps.sender ≠ some true) {id : Nat} {r' : MailMessageRow}
    (hr' : (w.step deps event).rows id = some r') (hopen : r'.state.open_ = true) : Unsent (w.step deps event) id := by
  have hgoes {j now : Nat} (hevent : event = .goesOn j now) : (w.step deps event).handed = w.handed := by
    rcases step_handed deps w event with heq | ⟨_, _, _, _, he, _⟩
    · exact heq
    · rw [hevent] at he
      cases he
  have hturn := step_row deps w event id
  rw [hr'] at hturn
  generalize hrow : some r' = row, (w.step deps event).claims id = c, (w.step deps event).requeues id = q at hturn
  cases hturn with
  | keeps => exact h.unsent_step hrow.symm hopen
  | inserts hevent hinserting _ =>
    obtain ⟨_, hnone, _⟩ := hfiled.inserts _ _ id _ hinserting rfl
    intro handed hmem hid
    have hsome := h.handed handed (hgoes hevent ▸ hmem)
    rw [hid, hnone] at hsome
    cases hsome
  | decides hr _ hstatement => exact h.unsent_step hr (by rw [(decide_eq_some hstatement).1]; rfl)
  | requeues _ hr hstatement =>
    rcases requeueable (requeue_eq_some hstatement).2.1 with hstate | ⟨_, htrue⟩
    · exact h.unsent_step hr (by rw [hstate]; rfl)
    · exact absurd htrue hsender
  | claims _ _ _ hstatement =>
    obtain ⟨_, _, rfl⟩ := claim_eq_some hstatement
    cases hrow
    cases hopen
  | reclaims _ _ _ htrue _ _ => exact absurd htrue hsender
  | settles hevent hsettles hid hr hstatement =>
    cases hrow
    rw [(settle_eq_some hstatement).2.2.1] at hopen
    rcases hsettles with hsettling | ⟨_, rfl, _⟩
    · have hunsent := h.jobs _ _ _ hsettling rfl (by cases ‹Settled› <;> first | rfl | cases hopen)
      intro handed hmem hhanded
      exact hunsent handed (hgoes hevent ▸ hmem) (hhanded.trans hid.symm)
    · cases hopen
  | clears hr hstatement _ =>
    cases hrow
    exact h.unsent_step hr ((clears_eq_some hstatement).2.1 ▸ hopen)

theorem single_start : Single .start :=
  ⟨(fun _ _ _ _ _ _ h => nomatch h), (fun _ _ _ _ h => nomatch h), (fun _ _ _ h => nomatch h), (fun _ _ h => nomatch h),
    (fun _ h => nomatch h), List.Pairwise.nil⟩

theorem single_step (h : Single w) (hfiled : Filed w) (htickets : Tickets w) (hsender : deps.sender ≠ some true) :
    Single (w.step deps event) where
  one _ _ _ _ _ _ hjob hjob' ha ha' hid := h.one_step hsender hjob hjob' ha ha' hid
  busy _ _ _ _ hjob ha hr' := h.busy_step hfiled htickets hsender hjob ha hr'
  jobs _ _ _ hjob ha hopen := h.jobs_step hsender hjob ha hopen
  rows _ _ hr' hopen := h.rows_step hfiled hsender hr' hopen
  handed handed hmem := by
    have hstays (hsome : (w.rows handed.id).isSome) : ((w.step deps event).rows handed.id).isSome := by
      obtain ⟨r, hr⟩ := Option.isSome_iff_exists.mp hsome
      exact (step_row deps w event handed.id).stays hr
    rcases step_handed deps w event with heq | ⟨j, now, delivery, a, _, hjob, heq⟩
    · exact hstays (h.handed handed (heq ▸ hmem))
    · rw [heq] at hmem
      rcases List.mem_append.mp hmem with hmem | hmem
      · exact hstays (h.handed handed hmem)
      · obtain rfl := List.mem_singleton.mp hmem
        obtain ⟨r, hr, _⟩ := htickets j _ a hjob rfl
        exact hstays (Option.isSome_iff_exists.mpr ⟨r, hr⟩)
  again := by
    rcases step_handed deps w event with heq | ⟨j, now, delivery, a, _, hjob, heq⟩
    · rw [heq]
      exact h.again
    · rw [heq, List.pairwise_append]
      refine ⟨h.again, List.pairwise_singleton _ _, fun earlier hearlier later hlater hid => ?_⟩
      obtain rfl := List.mem_singleton.mp hlater
      exact h.jobs j _ a hjob rfl rfl earlier hearlier hid

/-! ## Runs -/

/-- How a step may move a message. -/
inductive Moved : Event → MailMessageState → MailMessageState → Prop
  | stays {event : Event} {state : MailMessageState} : Moved event state state
  | released {event : Event} : Moved event .held .queued
  | dropped {event : Event} : Moved event .held .dropped
  | claimed {event : Event} : Moved event .queued .sending
  | settled {event : Event} (settled : Settled) : Moved event .sending settled.state
  | requeued {id now : Nat} {state : MailMessageState} : state = .failed ∨ state = .unknown →
    Moved (.requeue id now) state .queued

theorem step_moved (hfiled : Filed w) {id : Nat} {r : MailMessageRow} (hr : w.rows id = some r) :
    ∃ r', (w.step deps event).rows id = some r' ∧ Moved event r.state r'.state := by
  have hturn := step_row deps w event id
  generalize (w.step deps event).rows id = row, (w.step deps event).claims id = c, (w.step deps event).requeues id = q at hturn ⊢
  cases hturn with
  | keeps => exact ⟨r, hr, .stays⟩
  | inserts _ hinserting _ =>
    obtain ⟨_, hnone, _⟩ := hfiled.inserts _ _ id _ hinserting rfl
    rw [hr] at hnone
    cases hnone
  | decides hr' hstate hstatement =>
    rw [hr] at hr'
    cases hr'
    obtain ⟨hheld, rfl⟩ := decide_eq_some hstatement
    refine ⟨_, rfl, ?_⟩
    rw [hheld]
    rcases hstate with rfl | rfl
    · exact .released
    · exact .dropped
  | requeues hevent hr' hstatement =>
    rw [hr] at hr'
    cases hr'
    obtain ⟨_, hstate, rfl⟩ := requeue_eq_some hstatement
    subst hevent
    refine ⟨_, rfl, .requeued ?_⟩
    rcases requeueable hstate with hstate | ⟨hstate, _⟩
    · exact .inl hstate
    · exact .inr hstate
  | claims _ _ hr' hstatement =>
    rw [hr] at hr'
    cases hr'
    obtain ⟨hqueued, _, rfl⟩ := claim_eq_some hstatement
    exact ⟨_, rfl, hqueued ▸ .claimed⟩
  | reclaims _ _ _ _ hr' hstatement =>
    rw [hr] at hr'
    cases hr'
    obtain ⟨_, _, rfl⟩ := reclaim_eq_some hstatement
    exact ⟨_, rfl, .stays⟩
  | settles _ _ _ hr' hstatement =>
    rw [hr] at hr'
    cases hr'
    obtain ⟨hsending, _, hstate, _⟩ := settle_eq_some hstatement
    refine ⟨_, rfl, ?_⟩
    rw [hsending, hstate]
    exact .settled _
  | clears hr' hstatement _ =>
    rw [hr] at hr'
    cases hr'
    refine ⟨_, rfl, ?_⟩
    rw [(clears_eq_some hstatement).2.1]
    exact .stays

structure Inv (deps : Deps) (w : World) : Prop where
  filed : Filed w
  tickets : Tickets w
  single : deps.sender ≠ some true → Single w
  answers : ∀ answer ∈ w.answers, ∃ r, w.rows answer.messageId = some r ∧ r.sender = answer.sender ∧
    r.idempotencyKey = answer.idempotencyKey
  handed : ∀ handed ∈ w.handed, ∃ state, handed.state = some state ∧ state ≠ .held ∧ state ≠ .dropped

theorem inv_start : Inv deps .start :=
  ⟨filed_start, (fun _ _ _ h => nomatch h), (fun _ => single_start), (fun _ h => nomatch h), (fun _ h => nomatch h)⟩

theorem inv_step (h : Inv deps w) : Inv deps (w.step deps event) where
  filed := filed_step h.filed
  tickets := tickets_step h.tickets h.filed
  single hsender := single_step (h.single hsender) h.filed h.tickets hsender
  answers answer hmem := by
    have hkeeps {r : MailMessageRow} (hr : w.rows answer.messageId = some r) (hsender : r.sender = answer.sender)
        (hkey : r.idempotencyKey = answer.idempotencyKey) :
        ∃ r, (w.step deps event).rows answer.messageId = some r ∧ r.sender = answer.sender ∧
          r.idempotencyKey = answer.idempotencyKey := by
      obtain ⟨r', hr'⟩ := Option.isSome_iff_exists.mp ((step_row deps w event answer.messageId).stays hr)
      rcases h.filed.row_step hr' with ⟨s, hs, hsame⟩ | ⟨_, _, _, _, hjob, _⟩
      · rw [hr] at hs
        cases hs
        exact ⟨r', hr', hsame.1.trans hsender, hsame.2.1.trans hkey⟩
      · obtain ⟨_, hnone, _⟩ := h.filed.inserts _ _ _ _ hjob rfl
        rw [hr] at hnone
        cases hnone
    rcases step_answers hmem with hold | hfind
    · obtain ⟨r, hr, hsender, hkey⟩ := h.answers answer hold
      exact hkeeps hr hsender hkey
    · obtain ⟨r, hr, hsender, hkey⟩ := find_eq_some hfind
      exact hkeeps hr hsender hkey
  handed handed hmem := by
    rcases step_handed deps w event with heq | ⟨j, now, delivery, a, _, hjob, heq⟩
    · exact h.handed handed (heq ▸ hmem)
    · rw [heq] at hmem
      rcases List.mem_append.mp hmem with hmem | hmem
      · exact h.handed handed hmem
      · obtain rfl := List.mem_singleton.mp hmem
        obtain ⟨r, hr, hheld, hdropped, _⟩ := h.tickets j _ a hjob rfl
        exact ⟨r.state, by rw [hr]; rfl, hheld, hdropped⟩

theorem inv_after (h : Inv deps w) (events : List Event) : Inv deps (w.after deps events) := by
  induction events generalizing w with
  | nil => exact h
  | cons event rest ih => exact ih (inv_step h)

theorem outcomes_after (deps : Deps) (w : World) (events : List Event) :
    ∃ more, (w.after deps events).outcomes = w.outcomes ++ more := by
  induction events generalizing w with
  | nil => exact ⟨[], (List.append_nil _).symm⟩
  | cons event rest ih =>
    obtain ⟨more, hmore⟩ := ih (w.step deps event)
    refine ⟨outcomesOf deps w event ++ more, ?_⟩
    rw [← List.append_assoc, ← step_outcomes]
    exact hmore

theorem meetsAll_iff (h : Inv deps w) (hright : ∀ outcome ∈ w.outcomes, outcome.by_ = outcome.claim) (events : List Event) :
    MeetsAll deps w events ↔ ∀ outcome ∈ (w.after deps events).outcomes, outcome.by_ = outcome.claim := by
  induction events generalizing w with
  | nil => exact ⟨fun _ => hright, fun _ => trivial⟩
  | cons event rest ih =>
    have hstep := step_outcomes deps w event
    constructor
    · intro hmeets
      refine (ih (inv_step h) fun outcome hmem => ?_).mp hmeets.2
      rw [hstep] at hmem
      rcases List.mem_append.mp hmem with hmem | hmem
      · exact hright outcome hmem
      · exact (meets_iff h.tickets).mp hmeets.1 outcome hmem
    · intro hall
      obtain ⟨more, hmore⟩ := outcomes_after deps (w.step deps event) rest
      have hsofar : ∀ outcome ∈ (w.step deps event).outcomes, outcome.by_ = outcome.claim := by
        intro outcome hmem
        exact hall outcome (by rw [World.after, List.foldl_cons]; exact hmore ▸ List.mem_append_left _ hmem)
      refine ⟨(meets_iff h.tickets).mpr fun outcome hmem => hsofar outcome ?_, (ih (inv_step h) hsofar).mpr hall⟩
      rw [hstep]
      exact List.mem_append_right _ hmem

/-- What the relay keeps to in a state it reaches. -/
structure Relays (deps : Deps) (w : World) : Prop where
  one : ∀ id id' r r', w.rows id = some r → w.rows id' = some r' → r.sender = r'.sender →
    r.idempotencyKey = r'.idempotencyKey → id = id'
  answers : ∀ answer ∈ w.answers, ∃ r, w.rows answer.messageId = some r ∧ r.sender = answer.sender ∧
    r.idempotencyKey = answer.idempotencyKey
  handed : ∀ handed ∈ w.handed, ∃ state, handed.state = some state ∧ state ≠ .held ∧ state ≠ .dropped
  outcomes : ∀ outcome ∈ w.outcomes, outcome.by_ = outcome.claim
  again : deps.sender = some false → w.handed.Pairwise fun earlier later => earlier.id = later.id → earlier.delivery.NotSent

theorem relays_each_claim_once_iff (deps : Deps) (events : List Event) :
    (Relays deps (World.start.after deps events) ∧
      ∀ before event later, events = before ++ event :: later → ∀ id r, (World.start.after deps before).rows id = some r →
        ∃ r', ((World.start.after deps before).step deps event).rows id = some r' ∧ Moved event r.state r'.state) ↔
    MeetsAll deps .start events := by
  have hinv : Inv deps (World.start.after deps events) := inv_after inv_start events
  have hmeets : MeetsAll deps .start events ↔ _ := meetsAll_iff inv_start (fun _ hmem => nomatch hmem) events
  constructor
  · exact fun hrelays => hmeets.mpr hrelays.1.outcomes
  · intro h
    refine ⟨⟨hinv.filed.unique, hinv.answers, hinv.handed, hmeets.mp h, fun hsender => ?_⟩,
      fun before event later _ id r hr => ?_⟩
    · exact (hinv.single (by rw [hsender]; nofun)).again
    · exact step_moved (inv_after inv_start before).filed hr

/-- A consumer that stops behind its claim records its send against the claim made behind a requeue. -/
theorem a_send_recorded_against_another_claim : ¬∀ deps events, Relays deps (World.start.after deps events) := by
  intro h
  have hright := (h ⟨false, some true⟩
    [.accept "shop@live" "k" "f" "text" none 0, .goesOn 0 0, .goesOn 0 0,
      .dispatchMail 0 0, .goesOn 1 0, .readsContent 1 true,
      .dispatchMail 0 1000, .goesOn 2 1000, .readsContent 2 true, .handsOver 2 1000 (.error .providerRejected), .goesOn 2 1000,
      .requeue 0 1001, .dispatchMail 0 1001, .goesOn 3 1001,
      .handsOver 1 1002 (.taken "m"), .goesOn 1 1002]).outcomes ⟨0, 3, 1⟩ (by decide)
  exact absurd hright (by decide)

end Fabrika.Control.Mail
