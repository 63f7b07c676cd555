/-
  Fabrika.Control.MailProofs — what one step of the relay does to a message and to the jobs at work on
  it (see `Fabrika.Control.Mail`).

  `step_row` says it once for the rows, with the claim and requeue counts beside them, `step_job` for
  the jobs. `Filed` keeps an insert filed under the id it records, so a key has one message.
-/

import Fabrika.Control.Mail

namespace Fabrika.Control.Mail

variable {deps : Deps} {w : World} {event : Event}

/-! ## Rows -/

variable {statement : MailMessageRow → Option MailMessageRow} {j now : Nat} {r r' : MailMessageRow} {job : Job}
variable {idempotencyKey sender : String}

variable {id' : Nat}

theorem update_eq_some {id : Nat} {w' : World} (h : w.update id statement = some w') :
    ∃ r r', w.rows id = some r ∧ statement r = some r' ∧ w' = { w with rows := Function.update w.rows id (some r') } := by
  obtain ⟨r', hr', rfl⟩ := Option.map_eq_some_iff.mp h
  obtain ⟨r, hr, hstatement⟩ := Option.bind_eq_some_iff.mp hr'
  exact ⟨r, r', hr, hstatement, rfl⟩

/-- The consumer of job `j` is about to record this outcome of the attempt, its own or one it found stale. -/
def Settles (deps : Deps) (w : World) (j : Nat) (a : Attempt) (settled : Settled) : Prop :=
  w.jobs j = some (.settling a settled) ∨
  (w.jobs j = some (.stale a) ∧ settled = .unknown MAIL_DISPATCH_INTERRUPTED ∧
    ¬(deps.sender = some true ∧ a.attempt < MAIL_MAX_ATTEMPTS))

/-- What a step does to one message: its row, and how often it was claimed and requeued. -/
inductive RowTurn (deps : Deps) (w : World) (event : Event) (id : Nat) : Option MailMessageRow → Nat → Nat → Prop
  | keeps : RowTurn deps w event id (w.rows id) (w.claims id) (w.requeues id)
  | inserts {j now at_ : Nat} {input : MailMessageInput} : event = .goesOn j now → w.jobs j = some (.inserting id input at_) →
      w.find input.sender input.idempotencyKey = none →
      RowTurn deps w event id (some (inserted deps input at_)) (w.claims id) (w.requeues id)
  | decides {r r' : MailMessageRow} {state : MailMessageState} {now : Nat} :
    w.rows id = some r → state = .queued ∨ state = .dropped →
      decide_ state now r = some r' → RowTurn deps w event id (some r') (w.claims id) (w.requeues id)
  | requeues {r r' : MailMessageRow} {now : Nat} : event = .requeue id now → w.rows id = some r →
      requeue (requeueableMailStates deps.sender) now r = some r' →
      RowTurn deps w event id (some r') (w.claims id) (w.requeues id + 1)
  | claims {j now at_ : Nat} {row r r' : MailMessageRow} : event = .goesOn j now → w.jobs j = some (.claiming id row at_) →
    w.rows id = some r →
      claim row.attempts at_ r = some r' → RowTurn deps w event id (some r') (w.claims id + 1) (w.requeues id)
  | reclaims {j now : Nat} {before : Int} {a : Attempt} {r r' : MailMessageRow} :
    event = .goesOn j now → w.jobs j = some (.stale a) → a.id = id →
      deps.sender = some true → w.rows id = some r → reclaim a.attempt before now r = some r' →
      RowTurn deps w event id (some r') (w.claims id + 1) (w.requeues id)
  | settles {j now : Nat} {a : Attempt} {settled : Settled} {r r' : MailMessageRow} :
    event = .goesOn j now → Settles deps w j a settled → a.id = id →
      w.rows id = some r → settle settled a.attempt now r = some r' →
      RowTurn deps w event id (some r') (w.claims id) (w.requeues id)
  | clears {r r' : MailMessageRow} : w.rows id = some r → clearContent r = some r' ∨ clearContentRef r = some r' →
      r'.contentRef = r.contentRef ∨ (∃ j now rest, event = .goesOn j now ∧ w.jobs j = some (.unnaming id rest)) →
      RowTurn deps w event id (some r') (w.claims id) (w.requeues id)

theorem setJob_row {w' : World} {id : Nat} {job : Option Job}
    (h : RowTurn deps w event id (w'.rows id) (w'.claims id) (w'.requeues id)) :
    RowTurn deps w event id ((w'.setJob j job).rows id) ((w'.setJob j job).claims id) ((w'.setJob j job).requeues id) := h

/-- A statement on the row of `id'`. -/
theorem update_row {id : Nat} {claims requeues : Nat} (hr : w.rows id' = some r)
    (h : id = id' → RowTurn deps w event id (some r') claims requeues)
    (hother : id ≠ id' → claims = w.claims id ∧ requeues = w.requeues id) :
    RowTurn deps w event id (Function.update w.rows id' (some r') id) claims requeues := by
  by_cases hid : id = id'
  · subst hid
    rw [Function.update_self]
    exact h rfl
  · obtain ⟨rfl, rfl⟩ := hother hid
    rw [Function.update_of_ne hid]
    exact .keeps

theorem claimed_other {id : Nat} (h : id ≠ id') : (w.claimed id').claims id = w.claims id := Function.update_of_ne h _ _

theorem updated_row {id : Nat}
    (h : ∀ r r', w.rows id = some r → statement r = some r' → RowTurn deps w event id (some r') (w.claims id) (w.requeues id)) :
    RowTurn deps w event id ((w.updated id' statement).rows id) ((w.updated id' statement).claims id)
    ((w.updated id' statement).requeues id) := by
  unfold World.updated
  cases hw : w.update id' statement with
  | none => exact .keeps
  | some w' =>
    obtain ⟨r, r', hr, hstatement, rfl⟩ := update_eq_some hw
    refine update_row hr (fun hid => ?_) (fun _ => ⟨rfl, rfl⟩)
    subst hid
    exact h r r' hr hstatement

theorem settles_row {j now id : Nat} {a : Attempt} {settled : Settled} (hevent : event = .goesOn j now)
    (h : Settles deps w j a settled) :
    RowTurn deps w event id ((w.settles j a settled now).rows id) ((w.settles j a settled now).claims id)
      ((w.settles j a settled now).requeues id) := by
  unfold World.settles
  split
  · exact .keeps
  · next w' hw =>
    obtain ⟨r, r', hr, hstatement, rfl⟩ := update_eq_some hw
    refine update_row hr (fun hid => ?_) (fun _ => ⟨rfl, rfl⟩)
    subst hid
    exact .settles hevent h rfl hr hstatement

theorem dropUpload_rows (w : World) (id : Nat) : (w.dropUpload id).rows = w.rows := by
  unfold World.dropUpload
  split <;> rfl

theorem dropUpload_claims (w : World) (id : Nat) : (w.dropUpload id).claims = w.claims := by
  unfold World.dropUpload
  split <;> rfl

theorem dropUpload_requeues (w : World) (id : Nat) : (w.dropUpload id).requeues = w.requeues := by
  unfold World.dropUpload
  split <;> rfl

theorem dropUpload_jobs (w : World) (id : Nat) : (w.dropUpload id).jobs = w.jobs := by
  unfold World.dropUpload
  split <;> rfl

theorem insertMessage_eq (id : Nat) (input : MailMessageInput) (now : Nat) : w.insertMessage deps id input now =
    if (w.find input.sender input.idempotencyKey).isSome then w
    else { w with rows := Function.update w.rows id (some (inserted deps input now)) } := rfl

theorem clearContent_contentRef (h : clearContent r = some r') : r'.contentRef = r.contentRef := by
  unfold clearContent at h
  split at h
  · cases h
    rfl
  · cases h

theorem goesOn_row {j now id : Nat} (hevent : event = .goesOn j now) (hjob : w.jobs j = some job) :
    RowTurn deps w event id ((w.goesOn deps j now job).rows id) ((w.goesOn deps j now job).claims id)
      ((w.goesOn deps j now job).requeues id) := by
  cases job with
  | inserting id' input at_ =>
    simp only [World.goesOn]
    refine setJob_row ?_
    rw [dropUpload_rows, dropUpload_claims, dropUpload_requeues, insertMessage_eq]
    split
    · exact .keeps
    · next hfree =>
      dsimp only
      by_cases hid : id = id'
      · subst hid
        rw [Function.update_self]
        exact .inserts hevent hjob (Option.not_isSome_iff_eq_none.mp hfree)
      · rw [Function.update_of_ne hid]
        exact .keeps
  | finding id' input =>
    simp only [World.goesOn]
    split
    · exact .keeps
    · refine setJob_row ?_
      unfold World.answer
      split <;> exact .keeps
  | claiming id' row at_ =>
    simp only [World.goesOn]
    split
    · exact .keeps
    · next w' hw =>
      obtain ⟨r, r', hr, hstatement, rfl⟩ := update_eq_some hw
      refine update_row hr (fun hid => ?_) (fun hid => ⟨claimed_other hid, rfl⟩)
      subst hid
      show RowTurn deps w event id (some r') (Function.update w.claims id (w.claims id + 1) id) (w.requeues id)
      rw [Function.update_self]
      exact .claims hevent hjob hr hstatement
  | stale a =>
    simp only [World.goesOn]
    split
    · next hagain =>
      split
      · exact .keeps
      · next w' hw =>
        obtain ⟨r, r', hr, hstatement, rfl⟩ := update_eq_some hw
        refine update_row hr (fun hid => ?_) (fun hid => ⟨claimed_other hid, rfl⟩)
        subst hid
        show RowTurn deps w event a.id (some r') (Function.update w.claims a.id (w.claims a.id + 1) a.id) (w.requeues a.id)
        rw [Function.update_self]
        exact .reclaims hevent hjob rfl hagain.1 hr hstatement
    · next hnot => exact settles_row hevent (.inr ⟨hjob, rfl, hnot⟩)
  | settling a settled => exact settles_row hevent (.inl hjob)
  | clearing takes =>
    simp only [World.goesOn]
    refine setJob_row ?_
    dsimp only
    cases hr : w.rows id with
    | none =>
      rw [Option.map_none, ← hr]
      exact .keeps
    | some r =>
      rw [Option.map_some]
      split
      · cases hclear : clearContent r with
        | none =>
          rw [Option.getD_none, ← hr]
          exact .keeps
        | some r' => exact .clears hr (.inl hclear) (.inl (clearContent_contentRef hclear))
      · rw [← hr]
        exact .keeps
  | unnaming id' rest =>
    simp only [World.goesOn, World.updated]
    refine setJob_row ?_
    cases hw : w.update id' clearContentRef with
    | none => exact .keeps
    | some w' =>
      obtain ⟨r, r', hr, hstatement, rfl⟩ := update_eq_some hw
      refine update_row hr (fun hid => ?_) (fun _ => ⟨rfl, rfl⟩)
      subst hid
      exact .clears hr (.inr hstatement) (.inr ⟨j, now, rest, hevent, hjob⟩)
  | uploading | putting | discarding | discarded | selecting | deleting | collecting | unnamed | collected | reading | sending =>
    exact .keeps

theorem step_row (deps : Deps) (w : World) (event : Event) (id : Nat) :
    RowTurn deps w event id ((w.step deps event).rows id) ((w.step deps event).claims id) ((w.step deps event).requeues id) := by
  cases event with
  | accept sender idempotencyKey fingerprint content rule now =>
    simp only [World.step]
    split <;> exact .keeps
  | replay sender idempotencyKey fingerprint =>
    simp only [World.step]
    split
    · exact .keeps
    · unfold World.answer
      split <;> exact .keeps
  | release id' now => exact updated_row fun r r' hr hstatement => .decides hr (.inl rfl) hstatement
  | drop id' now => exact updated_row fun r r' hr hstatement => .decides hr (.inr rfl) hstatement
  | requeue id' now =>
    simp only [World.step]
    split
    · exact .keeps
    · next w' hw =>
      obtain ⟨r, r', hr, hstatement, rfl⟩ := update_eq_some hw
      refine update_row hr (fun hid => ?_) (fun hid => ⟨rfl, Function.update_of_ne hid _ _⟩)
      subst hid
      show RowTurn deps w _ id (some r') (w.claims id) (Function.update w.requeues id (w.requeues id + 1) id)
      rw [Function.update_self]
      exact .requeues rfl hr hstatement
  | dispatchMail id' now =>
    simp only [World.step]
    split <;> exact .keeps
  | purge takes => exact .keeps
  | collectUploads recordedBefore =>
    simp only [World.step]
    split <;> exact .keeps
  | goesOn j now =>
    simp only [World.step]
    split
    · exact .keeps
    · next hjob => exact goesOn_row rfl hjob
  | readsContent j parses =>
    simp only [World.step]
    split <;> exact .keeps
  | handsOver j now delivery =>
    simp only [World.step]
    split <;> exact .keeps
  | crash j => exact .keeps

/-! ## Jobs -/

/-- What the job at work is behind its next step. -/
def nextJob (deps : Deps) (w : World) (now : Nat) : Job → Option Job
  | .uploading id input at_ => some (.putting id input at_)
  | .putting id input at_ => some (.inserting id input at_)
  | .inserting id input _ => some (.finding id input)
  | .finding id input =>
    (w.find input.sender input.idempotencyKey).bind fun found => if found ≠ id ∧ deps.objects then some (.discarding id) else none
  | .discarding id => some (.discarded id)
  | .discarded _ => none
  | .claiming id row at_ =>
    (w.update id (claim row.attempts at_)).map fun _ => .reading ⟨id, row, row.attempts + 1, w.claims id + 1, w.requeues id⟩
  | .stale a =>
    if deps.sender = some true ∧ a.attempt < MAIL_MAX_ATTEMPTS then
      (w.update a.id (reclaim a.attempt ((now : Int) - MAIL_STALE_CLAIM_S) now)).map fun _ =>
        .reading ⟨a.id, a.row, a.attempt + 1, w.claims a.id + 1, w.requeues a.id⟩
    else (w.update a.id (settle (.unknown MAIL_DISPATCH_INTERRUPTED) a.attempt now)).bind fun _ =>
      if isInstallationSender a.row.sender then some (.clearing (.one a.id)) else none
  | .settling a settled => (w.update a.id (settle settled a.attempt now)).bind fun _ =>
      if settled.state.final && isInstallationSender a.row.sender then some (.clearing (.one a.id)) else none
  | .clearing takes => if deps.objects then some (.selecting takes) else none
  | .selecting takes =>
    let ids := (List.range w.nextId).filter fun id => (w.rows id).any fun r => r.contentRef && takes.takes id r && r.state.final
    nextOf .deleting (ids.take OBJECT_BATCH)
  | .deleting id rest => some (.unnaming id rest)
  | .unnaming _ rest => nextOf .deleting rest
  | .collecting id rest => some (if (w.rows id).any (·.contentRef) then .collected id rest else .unnamed id rest)
  | .unnamed id rest => some (.collected id rest)
  | .collected _ rest => nextOf .collecting rest
  | .reading a => some (.reading a)
  | .sending a => some (.sending a)

theorem settles_jobs (j : Nat) (a : Attempt) (settled : Settled) (now : Nat) :
    (w.settles j a settled now).jobs = Function.update w.jobs j ((w.update a.id (settle settled a.attempt now)).bind fun _ =>
      if settled.state.final && isInstallationSender a.row.sender then some (.clearing (.one a.id)) else none) := by
  unfold World.settles
  cases hw : w.update a.id (settle settled a.attempt now) with
  | none => rfl
  | some w' =>
    obtain ⟨r, r', hr, hstatement, rfl⟩ := update_eq_some hw
    rfl

theorem goesOn_jobs (now : Nat) (hjob : w.jobs j = some job) :
    (w.goesOn deps j now job).jobs = Function.update w.jobs j (nextJob deps w now job) := by
  cases job with
  | inserting id input at_ =>
    simp only [World.goesOn, World.setJob, nextJob]
    rw [dropUpload_jobs, insertMessage_eq]
    split <;> rfl
  | finding id input =>
    simp only [World.goesOn, nextJob]
    cases w.find input.sender input.idempotencyKey with
    | none => rfl
    | some found =>
      simp only [World.setJob, World.answer, Option.bind_some]
      split <;> rfl
  | claiming id row at_ =>
    simp only [World.goesOn, nextJob]
    cases hw : w.update id (claim row.attempts at_) with
    | none => rfl
    | some w' =>
      obtain ⟨r, r', hr, hstatement, rfl⟩ := update_eq_some hw
      rfl
  | stale a =>
    simp only [World.goesOn, nextJob]
    split
    · cases hw : w.update a.id (reclaim a.attempt ((now : Int) - MAIL_STALE_CLAIM_S) now) with
      | none => rfl
      | some w' =>
        obtain ⟨r, r', hr, hstatement, rfl⟩ := update_eq_some hw
        rfl
    · exact settles_jobs j a _ now
  | settling a settled => exact settles_jobs j a settled now
  | unnaming id rest =>
    simp only [World.goesOn, World.setJob, World.updated, nextJob]
    cases hw : w.update id clearContentRef with
    | none => rfl
    | some w' =>
      obtain ⟨r, r', hr, hstatement, rfl⟩ := update_eq_some hw
      rfl
  | reading a => exact (Function.update_eq_self_iff.mpr hjob.symm).symm
  | sending a => exact (Function.update_eq_self_iff.mpr hjob.symm).symm
  | uploading | putting | discarding | discarded | clearing | selecting | deleting | collecting | unnamed | collected => rfl

/-- The job's own next step, with what it found. -/
inductive Next (deps : Deps) (w : World) : Job → Job → Prop
  | puts {id at_ : Nat} {input : MailMessageInput} : Next deps w (.uploading id input at_) (.putting id input at_)
  | inserts {id at_ : Nat} {input : MailMessageInput} : Next deps w (.putting id input at_) (.inserting id input at_)
  | finds {id at_ : Nat} {input : MailMessageInput} : Next deps w (.inserting id input at_) (.finding id input)
  | discards {id found : Nat} {input : MailMessageInput} : w.find input.sender input.idempotencyKey = some found → found ≠ id →
      Next deps w (.finding id input) (.discarding id)
  | discarded {id : Nat} : Next deps w (.discarding id) (.discarded id)
  | claims {id at_ : Nat} {row r r' : MailMessageRow} : w.rows id = some r → claim row.attempts at_ r = some r' →
      Next deps w (.claiming id row at_) (.reading ⟨id, row, row.attempts + 1, w.claims id + 1, w.requeues id⟩)
  | reclaims {a : Attempt} {r r' : MailMessageRow} {before : Int} {now : Nat} : deps.sender = some true → w.rows a.id = some r →
      reclaim a.attempt before now r = some r' →
      Next deps w (.stale a) (.reading ⟨a.id, a.row, a.attempt + 1, w.claims a.id + 1, w.requeues a.id⟩)
  | interrupted {a : Attempt} : Next deps w (.stale a) (.clearing (.one a.id))
  | settled {a : Attempt} {settled : Settled} : Next deps w (.settling a settled) (.clearing (.one a.id))
  | selects {takes : PurgeWhere} : Next deps w (.clearing takes) (.selecting takes)
  | deletes {takes : PurgeWhere} {id : Nat} {rest : List Nat} :
      (∀ x ∈ id :: rest, ∃ r, w.rows x = some r ∧ r.contentRef = true ∧ r.state.final = true) →
      Next deps w (.selecting takes) (.deleting id rest)
  | unnames {id : Nat} {rest : List Nat} : Next deps w (.deleting id rest) (.unnaming id rest)
  | deletesNext {id id' : Nat} {rest : List Nat} : Next deps w (.unnaming id (id' :: rest)) (.deleting id' rest)
  | named {id : Nat} {rest : List Nat} {r : MailMessageRow} : w.rows id = some r → r.contentRef = true →
      Next deps w (.collecting id rest) (.collected id rest)
  | unnamed {id : Nat} {rest : List Nat} : (∀ r, w.rows id = some r → r.contentRef = false) →
    Next deps w (.collecting id rest) (.unnamed id rest)
  | collected {id : Nat} {rest : List Nat} : Next deps w (.unnamed id rest) (.collected id rest)
  | collectsNext {id id' : Nat} {rest : List Nat} : Next deps w (.collected id (id' :: rest)) (.collecting id' rest)
  | reading {a : Attempt} : Next deps w (.reading a) (.reading a)
  | sending {a : Attempt} : Next deps w (.sending a) (.sending a)

theorem nextJob_next {old : Job} (h : nextJob deps w now old = some job) : Next deps w old job := by
  cases old with
  | uploading => cases h; exact .puts
  | putting => cases h; exact .inserts
  | inserting => cases h; exact .finds
  | finding id input =>
    obtain ⟨found, hfound, h⟩ := Option.bind_eq_some_iff.mp h
    split at h
    · next hother =>
      cases h
      exact .discards hfound hother.1
    · cases h
  | discarding => cases h; exact .discarded
  | discarded => cases h
  | claiming id row at_ =>
    obtain ⟨w', hw, rfl⟩ := Option.map_eq_some_iff.mp h
    obtain ⟨r, r', hr, hstatement, _⟩ := update_eq_some hw
    exact .claims hr hstatement
  | stale a =>
    simp only [nextJob] at h
    split at h
    · next hagain =>
      obtain ⟨w', hw, rfl⟩ := Option.map_eq_some_iff.mp h
      obtain ⟨r, r', hr, hstatement, _⟩ := update_eq_some hw
      exact .reclaims hagain.1 hr hstatement
    · obtain ⟨_, _, h⟩ := Option.bind_eq_some_iff.mp h
      split at h
      · cases h
        exact .interrupted
      · cases h
  | settling a settled =>
    obtain ⟨_, _, h⟩ := Option.bind_eq_some_iff.mp h
    split at h
    · cases h
      exact .settled
    · cases h
  | clearing takes =>
    simp only [nextJob] at h
    split at h
    · cases h
      exact .selects
    · cases h
  | selecting takes =>
    simp only [nextJob] at h
    unfold nextOf at h
    split at h
    · cases h
    · next id rest hids =>
      cases h
      refine .deletes fun x hx => ?_
      rw [← hids] at hx
      obtain ⟨_, hany⟩ := List.mem_filter.mp (List.mem_of_mem_take hx)
      obtain ⟨r, hr, hrow⟩ := (Option.any_eq_true _ _).mp hany
      simp only [Bool.and_eq_true] at hrow
      exact ⟨r, hr, hrow.1.1, hrow.2⟩
  | deleting => cases h; exact .unnames
  | unnaming id rest =>
    cases rest with
    | nil => cases h
    | cons id' rest => cases h; exact .deletesNext
  | collecting id rest =>
    simp only [nextJob, Option.some.injEq] at h
    split at h
    · next hany =>
      obtain ⟨r, hr, hnamed⟩ := (Option.any_eq_true _ _).mp hany
      cases h
      exact .named hr hnamed
    · next hany =>
      cases h
      refine .unnamed fun r hr => Bool.eq_false_iff.mpr fun hnamed => hany ?_
      rw [hr, Option.any_some, hnamed]
  | unnamed => cases h; exact .collected
  | collected id rest =>
    cases rest with
    | nil => cases h
    | cons id' rest => cases h; exact .collectsNext
  | reading => cases h; exact .reading
  | sending => cases h; exact .sending

/-- The step starts the job under the next id. -/
def Starts (deps : Deps) (w : World) (event : Event) (j : Nat) : Prop := j = w.nextId ∧ (w.step deps event).nextId = w.nextId + 1

/-- Where a job of the next state comes from. -/
inductive JobTurn (deps : Deps) (w : World) (event : Event) (j : Nat) : Job → Prop
  | keeps {job : Job} : w.jobs j = some job → (∀ now, event ≠ .goesOn j now) →
    (∀ now d a, event = .handsOver j now d → job ≠ .sending a) →
      JobTurn deps w event j job
  | accepts (now : Nat) {input : MailMessageInput} {job : Job} :
    Starts deps w event j → (w.step deps event).recorded j = some input →
      job = .uploading j input now ∨ job = .inserting j input now ∧ deps.objects = false → JobTurn deps w event j job
  | dispatches {id now : Nat} {row : MailMessageRow} {job : Job} : Starts deps w event j → w.rows id = some row →
      dispatches deps w id row now = some job → JobTurn deps w event j job
  | purges {takes : PurgeWhere} : Starts deps w event j → JobTurn deps w event j (.clearing takes)
  | collects {id : Nat} {rest : List Nat} : Starts deps w event j → (∀ x ∈ id :: rest, x < w.nextId) →
    JobTurn deps w event j (.collecting id rest)
  | next {now : Nat} {old job : Job} : event = .goesOn j now → w.jobs j = some old → Next deps w old job →
    JobTurn deps w event j job
  | reads {parses : Bool} {a : Attempt} {job : Job} : event = .readsContent j parses → w.jobs j = some (.reading a) →
      job = .sending a ∨ job = .settling a (.failed "invalid_message") → JobTurn deps w event j job
  | hands {now : Nat} {delivery : Delivery} {a : Attempt} {settled : Settled} :
    event = .handsOver j now delivery → w.jobs j = some (.sending a) →
      settledBy (deps.sender = some true) a.attempt now delivery = some settled → JobTurn deps w event j (.settling a settled)

theorem update_jobs {j' : Nat} {new : Option Job} (h : Function.update w.jobs j' new j = some job) :
    (j = j' ∧ new = some job) ∨ (j ≠ j' ∧ w.jobs j = some job) := by
  by_cases hj : j = j'
  · subst hj
    rw [Function.update_self] at h
    exact .inl ⟨rfl, h⟩
  · rw [Function.update_of_ne hj] at h
    exact .inr ⟨hj, h⟩

theorem starts_jobs {started : Job} (h : (w.starts started).jobs j = some job) :
    (j = w.nextId ∧ job = started) ∨ w.jobs j = some job := by
  rcases update_jobs h with ⟨hj, hjob⟩ | ⟨_, hjob⟩
  · exact .inl ⟨hj, (Option.some.inj hjob).symm⟩
  · exact .inr hjob

theorem answer_jobs (sender idempotencyKey fingerprint : String) (id : Nat) :
    (w.answer sender idempotencyKey fingerprint id).jobs = w.jobs := by
  unfold World.answer
  split <;> rfl

theorem updated_jobs (id : Nat) (statement : MailMessageRow → Option MailMessageRow) :
    (w.updated id statement).jobs = w.jobs := by
  unfold World.updated
  cases hw : w.update id statement with
  | none => rfl
  | some w' =>
    obtain ⟨r, r', hr, hstatement, rfl⟩ := update_eq_some hw
    rfl

theorem step_job (h : (w.step deps event).jobs j = some job) : JobTurn deps w event j job := by
  cases event with
  | accept sender idempotencyKey fingerprint content rule now =>
    have hkeep (hjob : w.jobs j = some job) : JobTurn deps w (.accept sender idempotencyKey fingerprint content rule now) j job :=
      .keeps hjob (fun _ => nofun) (fun _ _ _ => nofun)
    simp only [World.step] at h
    split at h
    · exact hkeep h
    · next hsends =>
      rcases starts_jobs h with ⟨rfl, rfl⟩ | h
      · refine .accepts now ⟨rfl, by simp only [World.step, hsends]; rfl⟩ (by
          simp only [World.step, hsends]; exact Function.update_self _ _ _) ?_
        split
        · exact .inl rfl
        · next hobjects => exact .inr ⟨rfl, Bool.eq_false_iff.mpr hobjects⟩
      · exact hkeep h
  | replay sender idempotencyKey fingerprint =>
    refine .keeps ?_ (fun _ => nofun) (fun _ _ _ => nofun)
    simp only [World.step] at h
    split at h
    · exact h
    · exact answer_jobs (w := w) .. ▸ h
  | release id now => exact .keeps (updated_jobs (w := w) id _ ▸ h) (fun _ => nofun) (fun _ _ _ => nofun)
  | drop id now => exact .keeps (updated_jobs (w := w) id _ ▸ h) (fun _ => nofun) (fun _ _ _ => nofun)
  | requeue id now =>
    refine .keeps ?_ (fun _ => nofun) (fun _ _ _ => nofun)
    simp only [World.step] at h
    split at h
    · exact h
    · next w' hw =>
      obtain ⟨r, r', hr, hstatement, rfl⟩ := update_eq_some hw
      exact h
  | dispatchMail id now =>
    simp only [World.step] at h
    split at h
    · exact .keeps h (fun _ => nofun) (fun _ _ _ => nofun)
    · next started hstarted =>
      rcases starts_jobs h with ⟨rfl, rfl⟩ | h
      · obtain ⟨row, hrow, hdispatches⟩ := Option.bind_eq_some_iff.mp hstarted
        exact .dispatches ⟨rfl, by simp only [World.step, hstarted]; rfl⟩ hrow hdispatches
      · exact .keeps h (fun _ => nofun) (fun _ _ _ => nofun)
  | purge takes =>
    rcases starts_jobs h with ⟨rfl, rfl⟩ | h
    · exact .purges ⟨rfl, rfl⟩
    · exact .keeps h (fun _ => nofun) (fun _ _ _ => nofun)
  | collectUploads recordedBefore =>
    simp only [World.step] at h
    split at h
    · exact .keeps h (fun _ => nofun) (fun _ _ _ => nofun)
    · next started hstarted =>
      rcases starts_jobs h with ⟨rfl, rfl⟩ | h
      · have hnext : (w.step deps (.collectUploads recordedBefore)).nextId = w.nextId + 1 := by
          simp only [World.step, hstarted]
          rfl
        unfold nextOf at hstarted
        split at hstarted
        · cases hstarted
        · next hids =>
          cases hstarted
          refine .collects ⟨rfl, hnext⟩ fun x hx => ?_
          rw [← hids] at hx
          have hdue := (List.mem_insertionSort _).mp (List.mem_of_mem_take hx)
          exact List.mem_range.mp (List.mem_filter.mp hdue).1
      · exact .keeps h (fun _ => nofun) (fun _ _ _ => nofun)
  | goesOn j' now =>
    simp only [World.step] at h
    split at h
    · next hnone =>
      refine .keeps h (fun now' he => ?_) (fun _ _ _ => nofun)
      cases he
      rw [h] at hnone
      cases hnone
    · next old hold =>
      rw [goesOn_jobs now hold] at h
      rcases update_jobs h with ⟨rfl, hnext⟩ | ⟨hne, h⟩
      · exact .next rfl hold (nextJob_next hnext)
      · refine .keeps h (fun now' he => ?_) (fun _ _ _ => nofun)
        cases he
        exact hne rfl
  | readsContent j' parses =>
    simp only [World.step] at h
    split at h
    · next a hold =>
      rcases update_jobs h with ⟨rfl, hnew⟩ | ⟨_, h⟩
      · refine .reads rfl hold ?_
        cases hnew
        split
        · exact .inl rfl
        · exact .inr rfl
      · exact .keeps h (fun _ => nofun) (fun _ _ _ => nofun)
    · exact .keeps h (fun _ => nofun) (fun _ _ _ => nofun)
  | handsOver j' now delivery =>
    simp only [World.step] at h
    split at h
    · next a hold =>
      rcases update_jobs (w := w.hands _) h with ⟨rfl, hnew⟩ | ⟨hne, h⟩
      · obtain ⟨settled, hsettled, rfl⟩ := Option.map_eq_some_iff.mp hnew
        exact .hands rfl hold hsettled
      · refine .keeps h (fun _ => nofun) (fun now' d a' he => ?_)
        cases he
        exact absurd rfl hne
    · next hnot =>
      refine .keeps h (fun _ => nofun) (fun now' d a' he hjob => ?_)
      cases he
      exact hnot a' (hjob ▸ h)
  | crash j' =>
    rcases update_jobs h with ⟨_, hnone⟩ | ⟨_, h⟩
    · cases hnone
    · exact .keeps h (fun _ => nofun) (fun _ _ _ => nofun)

theorem dispatches_insert {id : Nat} {row : MailMessageRow} (h : dispatches deps w id row now = some job) :
    job = .claiming id row now ∧ row.state = .queued ∨
    job = .stale ⟨id, row, row.attempts, w.claims id, w.requeues id⟩ ∧ row.state = .sending := by
  unfold dispatches at h
  split at h
  · next hstate =>
    split at h
    · cases h
      exact .inl ⟨rfl, hstate⟩
    · cases h
  · split at h
    · next hstate =>
      simp only [Bool.and_eq_true, decide_eq_true_eq] at hstate
      cases h
      exact .inr ⟨rfl, hstate.1⟩
    · cases h

/-- A stage no job starts in. -/
def Job.later : Job → Bool
  | .putting .. | .finding .. | .discarding _ | .discarded _ | .deleting .. | .unnaming .. | .unnamed .. | .collected .. => true
  | _ => false

theorem step_later (h : (w.step deps event).jobs j = some job) (hlater : job.later = true) :
    (w.jobs j = some job ∧ ∀ now, event ≠ .goesOn j now) ∨
    ∃ now old, event = .goesOn j now ∧ w.jobs j = some old ∧ Next deps w old job := by
  cases step_job h with
  | keeps hold hgoes _ => exact .inl ⟨hold, hgoes⟩
  | accepts _ _ _ hnew => rcases hnew with rfl | ⟨rfl, _⟩ <;> cases hlater
  | dispatches _ _ hdispatches => rcases dispatches_insert hdispatches with ⟨rfl, _⟩ | ⟨rfl, _⟩ <;> cases hlater
  | purges _ => cases hlater
  | collects _ _ => cases hlater
  | next hevent hold hnext => exact .inr ⟨_, _, hevent, hold, hnext⟩
  | reads _ _ hnew => rcases hnew with rfl | rfl <;> cases hlater
  | hands _ _ _ => cases hlater

/-! ## What no step changes -/

/-- A later row of the same message. -/
def Same (r r' : MailMessageRow) : Prop :=
  r'.sender = r.sender ∧ r'.idempotencyKey = r.idempotencyKey ∧ r'.fingerprint = r.fingerprint

theorem settle_eq_some {settled : Settled} {attempt : Nat} (h : settle settled attempt now r = some r') :
    r.state = .sending ∧ r.attempts = attempt ∧ r'.state = settled.state ∧ r'.attempts = r.attempts ∧ Same r r' ∧
      r'.contentRef = r.contentRef ∧ r'.content = r.content := by
  unfold settle at h
  split at h
  · next hclaim =>
    simp only [Bool.and_eq_true, decide_eq_true_eq, beq_iff_eq] at hclaim
    cases settled with
    | sent | failed | unknown | deferred =>
      cases h
      exact ⟨hclaim.1, hclaim.2, rfl, rfl, ⟨rfl, rfl, rfl⟩, rfl, rfl⟩
  · cases h

theorem claim_eq_some {expected : Nat} (h : claim expected now r = some r') :
    r.state = .queued ∧ r.attempts = expected ∧
    r' = { r with state := .sending, attempts := r.attempts + 1, updatedAt := now } := by
  unfold claim at h
  split at h
  · next hclaim =>
    simp only [Bool.and_eq_true, decide_eq_true_eq, beq_iff_eq] at hclaim
    exact ⟨hclaim.1.1, hclaim.1.2, (Option.some.inj h).symm⟩
  · cases h

theorem reclaim_eq_some {expected : Nat} {before : Int} (h : reclaim expected before now r = some r') :
    r.state = .sending ∧ r.attempts = expected ∧ r' = { r with attempts := r.attempts + 1, updatedAt := now } := by
  unfold reclaim at h
  split at h
  · next hclaim =>
    simp only [Bool.and_eq_true, decide_eq_true_eq, beq_iff_eq] at hclaim
    exact ⟨hclaim.1.1, hclaim.1.2, (Option.some.inj h).symm⟩
  · cases h

theorem requeue_eq_some {states : List MailMessageState} (h : requeue states now r = some r') :
    hasMailContent r = true ∧ r.state ∈ states ∧
    r' = { r with state := .queued, attempts := 0, nextAttemptAt := none, updatedAt := now } := by
  unfold requeue at h
  split at h
  · next hkept =>
    simp only [Bool.and_eq_true, List.contains_iff_mem] at hkept
    exact ⟨hkept.1, hkept.2, (Option.some.inj h).symm⟩
  · cases h

theorem decide_eq_some {state : MailMessageState} (h : decide_ state now r = some r') :
    r.state = .held ∧ r' = { r with state, updatedAt := now } := by
  unfold decide_ at h
  split at h
  · next hheld => exact ⟨hheld, (Option.some.inj h).symm⟩
  · cases h

theorem clears_eq_some (h : clearContent r = some r' ∨ clearContentRef r = some r') :
    r.state.final = true ∧ r'.state = r.state ∧ r'.attempts = r.attempts ∧ Same r r' ∧
    (r'.contentRef = true → r.contentRef = true) := by
  rcases h with h | h
  · unfold clearContent at h
    split at h
    · next hfinal =>
      simp only [Bool.and_eq_true] at hfinal
      cases h
      exact ⟨hfinal.2, rfl, rfl, ⟨rfl, rfl, rfl⟩, id⟩
    · cases h
  · unfold clearContentRef at h
    split at h
    · next hfinal =>
      simp only [Bool.and_eq_true] at hfinal
      cases h
      exact ⟨hfinal.2, rfl, rfl, ⟨rfl, rfl, rfl⟩, nofun⟩
    · cases h

theorem requeueable {sender : Option Bool} {state : MailMessageState} (h : state ∈ requeueableMailStates sender) :
    state = .failed ∨ (state = .unknown ∧ sender = some true) := by
  unfold requeueableMailStates at h
  split at h
  · next hsender =>
    rcases List.mem_cons.mp h with h | h
    · exact .inl h
    · exact .inr ⟨List.mem_singleton.mp h, hsender⟩
  · exact .inl (List.mem_singleton.mp h)

theorem RowTurn.same {id c q : Nat} {row : Option MailMessageRow} (h : RowTurn deps w event id row c q) (hr' : row = some r') :
    (∃ r, w.rows id = some r ∧ Same r r') ∨
    ∃ j now at_ input, event = .goesOn j now ∧ w.jobs j = some (.inserting id input at_) ∧
    w.find input.sender input.idempotencyKey = none ∧
      r' = inserted deps input at_ := by
  cases h with
  | keeps => exact .inl ⟨r', hr', rfl, rfl, rfl⟩
  | inserts hevent hjob hfind => exact .inr ⟨_, _, _, _, hevent, hjob, hfind, (Option.some.inj hr').symm⟩
  | decides hr _ hstatement =>
    obtain ⟨_, rfl⟩ := decide_eq_some hstatement
    cases hr'
    exact .inl ⟨_, hr, rfl, rfl, rfl⟩
  | requeues _ hr hstatement =>
    obtain ⟨_, _, rfl⟩ := requeue_eq_some hstatement
    cases hr'
    exact .inl ⟨_, hr, rfl, rfl, rfl⟩
  | claims _ _ hr hstatement =>
    obtain ⟨_, _, rfl⟩ := claim_eq_some hstatement
    cases hr'
    exact .inl ⟨_, hr, rfl, rfl, rfl⟩
  | reclaims _ _ _ _ hr hstatement =>
    obtain ⟨_, _, rfl⟩ := reclaim_eq_some hstatement
    cases hr'
    exact .inl ⟨_, hr, rfl, rfl, rfl⟩
  | settles _ _ _ hr hstatement =>
    cases hr'
    exact .inl ⟨_, hr, (settle_eq_some hstatement).2.2.2.2.1⟩
  | clears hr hstatement _ =>
    cases hr'
    exact .inl ⟨_, hr, (clears_eq_some hstatement).2.2.2.1⟩

/-- No row goes away. -/
theorem RowTurn.stays {id c q : Nat} {row : Option MailMessageRow} (h : RowTurn deps w event id row c q)
    (hr : w.rows id = some r) : row.isSome = true := by
  cases h with
  | keeps => rw [hr]; rfl
  | inserts | decides | requeues | claims | reclaims | settles | clears => rfl

theorem goesOn_frame :
    (w.goesOn deps j now job).recorded = w.recorded ∧ (w.goesOn deps j now job).nextId = w.nextId ∧
      (w.goesOn deps j now job).handed = w.handed := by
  have hsettles (a : Attempt) (settled : Settled) :
      (w.settles j a settled now).recorded = w.recorded ∧ (w.settles j a settled now).nextId = w.nextId ∧
        (w.settles j a settled now).handed = w.handed := by
    unfold World.settles
    split
    · exact ⟨rfl, rfl, rfl⟩
    · next hw =>
      obtain ⟨_, _, _, _, rfl⟩ := update_eq_some hw
      exact ⟨rfl, rfl, rfl⟩
  cases job with
  | inserting id input at_ =>
    simp only [World.goesOn, World.setJob, World.dropUpload]
    rw [insertMessage_eq]
    repeat' split
    all_goals exact ⟨rfl, rfl, rfl⟩
  | finding id input =>
    simp only [World.goesOn, World.setJob, World.answer]
    split
    · exact ⟨rfl, rfl, rfl⟩
    · split <;> exact ⟨rfl, rfl, rfl⟩
  | claiming id row at_ =>
    simp only [World.goesOn]
    split
    · exact ⟨rfl, rfl, rfl⟩
    · next hw =>
      obtain ⟨_, _, _, _, rfl⟩ := update_eq_some hw
      exact ⟨rfl, rfl, rfl⟩
  | stale a =>
    simp only [World.goesOn]
    split
    · split
      · exact ⟨rfl, rfl, rfl⟩
      · next hw =>
        obtain ⟨_, _, _, _, rfl⟩ := update_eq_some hw
        exact ⟨rfl, rfl, rfl⟩
    · exact hsettles a _
  | settling a settled => exact hsettles a settled
  | unnaming id rest =>
    simp only [World.goesOn, World.setJob, World.updated]
    cases hw : w.update id clearContentRef with
    | none => exact ⟨rfl, rfl, rfl⟩
    | some w' =>
      obtain ⟨_, _, _, _, rfl⟩ := update_eq_some hw
      exact ⟨rfl, rfl, rfl⟩
  | uploading | putting | discarding | discarded | clearing | selecting | deleting | collecting | unnamed | collected | reading
  | sending =>
    exact ⟨rfl, rfl, rfl⟩

theorem step_frame : w.nextId ≤ (w.step deps event).nextId ∧ ∀ id, id < w.nextId →
    (w.step deps event).recorded id = w.recorded id := by
  have hsame {w' : World} (hrecorded : w'.recorded = w.recorded) (hnext : w.nextId ≤ w'.nextId) :
      w.nextId ≤ w'.nextId ∧ ∀ id, id < w.nextId → w'.recorded id = w.recorded id :=
    ⟨hnext, fun id _ => by rw [hrecorded]⟩
  have hupdated (id : Nat) (statement : MailMessageRow → Option MailMessageRow) :
      (w.updated id statement).recorded = w.recorded ∧ (w.updated id statement).nextId = w.nextId := by
    unfold World.updated
    cases hw : w.update id statement with
    | none => exact ⟨rfl, rfl⟩
    | some w' =>
      obtain ⟨_, _, _, _, rfl⟩ := update_eq_some hw
      exact ⟨rfl, rfl⟩
  cases event with
  | accept sender idempotencyKey fingerprint content rule now =>
    simp only [World.step]
    split
    · exact hsame rfl (Nat.le_refl _)
    · exact ⟨Nat.le_succ _, fun id hid => Function.update_of_ne (Nat.ne_of_lt hid) _ _⟩
  | replay sender idempotencyKey fingerprint =>
    simp only [World.step, World.answer]
    split
    · exact hsame rfl (Nat.le_refl _)
    · split <;> exact hsame rfl (Nat.le_refl _)
  | release id now => exact hsame (hupdated id _).1 (Nat.le_of_eq (hupdated id _).2.symm)
  | drop id now => exact hsame (hupdated id _).1 (Nat.le_of_eq (hupdated id _).2.symm)
  | requeue id now =>
    simp only [World.step]
    split
    · exact hsame rfl (Nat.le_refl _)
    · next hw =>
      obtain ⟨_, _, _, _, rfl⟩ := update_eq_some hw
      exact hsame rfl (Nat.le_refl _)
  | dispatchMail id now =>
    simp only [World.step]
    split
    · exact hsame rfl (Nat.le_refl _)
    · exact hsame rfl (Nat.le_succ _)
  | purge takes => exact hsame rfl (Nat.le_succ _)
  | collectUploads recordedBefore =>
    simp only [World.step]
    split
    · exact hsame rfl (Nat.le_refl _)
    · exact hsame rfl (Nat.le_succ _)
  | goesOn j now =>
    simp only [World.step]
    split
    · exact hsame rfl (Nat.le_refl _)
    · exact hsame (goesOn_frame).1 (Nat.le_of_eq (goesOn_frame).2.1.symm)
  | readsContent j parses =>
    simp only [World.step]
    split <;> exact hsame rfl (Nat.le_refl _)
  | handsOver j now delivery =>
    simp only [World.step]
    split <;> exact hsame rfl (Nat.le_refl _)
  | crash j => exact hsame rfl (Nat.le_refl _)

/-! ## Inserts are filed under the id they record -/

/-- What an insert records, until its row is committed. -/
def Job.insert : Job → Option (Nat × MailMessageInput)
  | .uploading id input _ => some (id, input)
  | .putting id input _ => some (id, input)
  | .inserting id input _ => some (id, input)
  | _ => none

structure Filed (w : World) : Prop where
  rowsFresh : ∀ id, w.nextId ≤ id → w.rows id = none
  jobsFresh : ∀ j, w.nextId ≤ j → w.jobs j = none
  inserts : ∀ j job id input, w.jobs j = some job → job.insert = some (id, input) → j = id ∧ w.rows id = none ∧
    w.recorded id = some input
  finds : ∀ j id input, w.jobs j = some (.finding id input) → j = id ∧ w.recorded id = some input
  rows : ∀ id r, w.rows id = some r → ∃ input, w.recorded id = some input ∧ r.sender = input.sender ∧
    r.idempotencyKey = input.idempotencyKey ∧ r.fingerprint = input.fingerprint
  unique : ∀ id id' r r', w.rows id = some r → w.rows id' = some r' → r.sender = r'.sender →
    r.idempotencyKey = r'.idempotencyKey → id = id'

theorem filed_start : Filed .start :=
  ⟨(fun _ _ => rfl), (fun _ _ => rfl), (fun _ _ _ _ h => nomatch h), (fun _ _ _ h => nomatch h), (fun _ _ h => nomatch h),
    (fun _ _ _ _ h => nomatch h)⟩

theorem Filed.job_lt (h : Filed w) (hjob : w.jobs j = some job) : j < w.nextId := by
  by_contra hge
  rw [h.jobsFresh j (Nat.le_of_not_lt hge)] at hjob
  cases hjob

theorem Filed.row_lt (h : Filed w) {id : Nat} (hr : w.rows id = some r) : id < w.nextId := by
  by_contra hge
  rw [h.rowsFresh id (Nat.le_of_not_lt hge)] at hr
  cases hr

theorem find_eq_some {id : Nat} (h : w.find sender idempotencyKey = some id) :
    ∃ r, w.rows id = some r ∧ r.sender = sender ∧ r.idempotencyKey = idempotencyKey := by
  have hany := List.find?_some h
  obtain ⟨r, hr, hkey⟩ := (Option.any_eq_true _ _).mp hany
  simp only [Bool.and_eq_true, beq_iff_eq] at hkey
  exact ⟨r, hr, hkey⟩

theorem find_eq_none {id : Nat} (h : w.find sender idempotencyKey = none) (hid : id < w.nextId) (hr : w.rows id = some r) :
    ¬(r.sender = sender ∧ r.idempotencyKey = idempotencyKey) := by
  rintro ⟨rfl, rfl⟩
  refine List.find?_eq_none.mp h id (List.mem_range.mpr hid) ?_
  simp [hr]

theorem Filed.find_row (h : Filed w) {id found : Nat} (hfind : w.find sender idempotencyKey = some found)
    (hr : w.rows id = some r) (hsender : r.sender = sender) (hkey : r.idempotencyKey = idempotencyKey) : found = id := by
  obtain ⟨r', hr', hsender', hkey'⟩ := find_eq_some hfind
  exact h.unique _ _ r' r hr' hr (by rw [hsender', hsender]) (by rw [hkey', hkey])

/-- A row is committed by the insert filed under its id, and by that step alone. -/
theorem Filed.row_step (h : Filed w) {id : Nat} (hr' : (w.step deps event).rows id = some r') :
    (∃ r, w.rows id = some r ∧ Same r r') ∨
    ∃ now at_ input, event = .goesOn id now ∧ w.jobs id = some (.inserting id input at_) ∧ w.recorded id = some input ∧
      w.find input.sender input.idempotencyKey = none ∧ r' = inserted deps input at_ := by
  rcases (step_row deps w event id).same hr' with hold | ⟨j, now, at_, input, hevent, hjob, hfind, hrow⟩
  · exact .inl hold
  · obtain ⟨rfl, _, hrecorded⟩ := h.inserts j _ id input hjob rfl
    exact .inr ⟨now, at_, input, hevent, hjob, hrecorded, hfind, hrow⟩

theorem Next.insert {old : Job} {id : Nat} {input : MailMessageInput} (h : Next deps w old job)
    (hinsert : job.insert = some (id, input)) : old.insert = some (id, input) ∧ ∀ at_, old ≠ .inserting id input at_ := by
  cases h with
  | puts | inserts => exact ⟨hinsert, fun _ => nofun⟩
  | finds | discards | discarded | claims | reclaims | interrupted | settled | selects | deletes | unnames | deletesNext | named
  | unnamed
  | collected | collectsNext | reading | sending => cases hinsert

theorem Filed.rows_none (h : Filed w) {id : Nat} (hnone : w.rows id = none)
    (hinsert : ∀ now at_ input, event = .goesOn id now → w.jobs id ≠ some (.inserting id input at_)) :
    (w.step deps event).rows id = none := by
  refine Option.eq_none_iff_forall_ne_some.mpr fun r' hr' => ?_
  rcases h.row_step hr' with ⟨r, hr, _⟩ | ⟨now, at_, input, hevent, hjob, _⟩
  · rw [hnone] at hr
    cases hr
  · exact hinsert now at_ input hevent hjob

theorem Filed.inserts_step (h : Filed w) {id : Nat} {input : MailMessageInput} (hjob : (w.step deps event).jobs j = some job)
    (hinsert : job.insert = some (id, input)) :
    j = id ∧ (w.step deps event).rows id = none ∧ (w.step deps event).recorded id = some input := by
  cases step_job hjob with
  | keeps hold hgoes _ =>
    obtain ⟨rfl, hnone, hrecorded⟩ := h.inserts j job id input hold hinsert
    refine ⟨rfl, h.rows_none hnone fun now _ _ he => absurd he (hgoes now), ?_⟩
    rw [(step_frame).2 j (h.job_lt hold), hrecorded]
  | accepts now hstarts hrecorded hnew =>
    obtain ⟨rfl, hnext⟩ := hstarts
    rename_i recorded
    have hid : w.nextId = id ∧ recorded = input := by
      rcases hnew with rfl | ⟨rfl, _⟩ <;> exact Prod.mk.inj (Option.some.inj hinsert)
    obtain ⟨rfl, rfl⟩ := hid
    refine ⟨rfl, h.rows_none (h.rowsFresh _ (Nat.le_refl _)) fun _ _ _ _ hjob => ?_, hrecorded⟩
    exact absurd (h.job_lt hjob) (Nat.lt_irrefl _)
  | dispatches _ _ hdispatches =>
    rcases dispatches_insert hdispatches with ⟨rfl, _⟩ | ⟨rfl, _⟩ <;> cases hinsert
  | purges _ => cases hinsert
  | collects _ _ => cases hinsert
  | next hevent hold hnext =>
    obtain ⟨hwas, hnot⟩ := hnext.insert hinsert
    obtain ⟨rfl, hnone, hrecorded⟩ := h.inserts j _ id input hold hwas
    refine ⟨rfl, h.rows_none hnone fun _ at_ input' _ hinserting => ?_, ?_⟩
    · rw [hold] at hinserting
      cases hinserting
      cases hwas
      exact hnot at_ rfl
    · rw [(step_frame).2 j (h.job_lt hold), hrecorded]
  | reads _ _ hnew => rcases hnew with rfl | rfl <;> cases hinsert
  | hands _ _ _ => cases hinsert

theorem filed_step (h : Filed w) : Filed (w.step deps event) where
  rowsFresh id hid := by
    have hle : w.nextId ≤ (w.step deps event).nextId := (step_frame).1
    refine h.rows_none (h.rowsFresh id (Nat.le_trans hle hid)) fun _ _ _ _ hjob => ?_
    have hlt := h.job_lt hjob
    omega
  jobsFresh j hj := by
    have hle : w.nextId ≤ (w.step deps event).nextId := (step_frame).1
    refine Option.eq_none_iff_forall_ne_some.mpr fun job hjob => ?_
    have hold (old : Job) (hold : w.jobs j = some old) : False := by
      have hlt := h.job_lt hold
      omega
    have hnew (hstarts : Starts deps w event j) : False := by
      obtain ⟨rfl, hnext⟩ := hstarts
      omega
    cases step_job hjob with
    | keeps hjob _ _ => exact hold _ hjob
    | accepts _ hstarts _ _ => exact hnew hstarts
    | dispatches hstarts _ _ => exact hnew hstarts
    | purges hstarts => exact hnew hstarts
    | collects hstarts _ => exact hnew hstarts
    | next _ hjob _ => exact hold _ hjob
    | reads _ hjob _ => exact hold _ hjob
    | hands _ hwas _ => exact hold _ hwas
  inserts _ _ _ _ hjob hinsert := h.inserts_step hjob hinsert
  finds j id input hjob := by
    rcases step_later hjob rfl with ⟨hold, _⟩ | ⟨now, old, _, hold, hnext⟩
    · obtain ⟨rfl, hrecorded⟩ := h.finds j id input hold
      rw [(step_frame).2 j (h.job_lt hold)]
      exact ⟨rfl, hrecorded⟩
    · cases hnext with
      | finds =>
        obtain ⟨rfl, _, hrecorded⟩ := h.inserts j _ id input hold rfl
        rw [(step_frame).2 j (h.job_lt hold)]
        exact ⟨rfl, hrecorded⟩
  rows id r' hr' := by
    rcases h.row_step hr' with ⟨r, hr, hsender, hkey, hfingerprint⟩ | ⟨_, at_, input, _, hjob, hrecorded, _, rfl⟩
    · obtain ⟨input, hrecorded, hsender', hkey', hfingerprint'⟩ := h.rows id r hr
      rw [(step_frame).2 id (h.row_lt hr)]
      exact ⟨input, hrecorded, by rw [hsender, hsender'], by rw [hkey, hkey'], by rw [hfingerprint, hfingerprint']⟩
    · rw [(step_frame).2 id (h.job_lt hjob)]
      exact ⟨input, hrecorded, rfl, rfl, rfl⟩
  unique id id' r r' hr hr' hsender hkey := by
    rcases h.row_step hr with ⟨s, hs, hsender₁, hkey₁, _⟩ | ⟨_, _, input, hevent, hjob, _, hfind, rfl⟩
    · rcases h.row_step hr' with ⟨s', hs', hsender₂, hkey₂, _⟩ | ⟨_, _, input, hevent, hjob, _, hfind, rfl⟩
      · exact h.unique id id' s s' hs hs' (by rw [← hsender₁, hsender, hsender₂]) (by rw [← hkey₁, hkey, hkey₂])
      · exact absurd ⟨hsender₁ ▸ hsender, hkey₁ ▸ hkey⟩ (find_eq_none hfind (h.row_lt hs) hs)
    · rcases h.row_step hr' with ⟨s', hs', hsender₂, hkey₂, _⟩ | ⟨_, _, input', hevent', _⟩
      · exact absurd ⟨hsender₂ ▸ hsender.symm, hkey₂ ▸ hkey.symm⟩ (find_eq_none hfind (h.row_lt hs') hs')
      · rw [hevent] at hevent'
        cases hevent'
        rfl

end Fabrika.Control.Mail
