/-
  Fabrika.Control.MailContentProofs — a message that can still be sent keeps its content (see
  `Fabrika.Control.Mail`), over a store for content objects.

  An object is written under an upload's record before its row, and deleted before its row lets go of
  it. Both orders hold (`Kept`) as long as no purge deletes the object of a message that was requeued
  since it was selected, no requeue takes a message whose object a purge has deleted, and no
  collection takes up an upload whose insert has yet to commit.
-/

import Fabrika.Control.MailProofs

namespace Fabrika.Control.Mail

variable {deps : Deps} {w : World} {event : Event}

/-! ## What a step does to the objects and the uploads' records -/

inductive ObjectTurn (w : World) (event : Event) (id : Nat) : Option String → Prop
  | keeps : ObjectTurn w event id (w.objects id)
  | puts {j now at_ : Nat} {input : MailMessageInput} : event = .goesOn j now → w.jobs j = some (.putting id input at_) →
      ObjectTurn w event id (some input.content)
  | discards {j now : Nat} : event = .goesOn j now → w.jobs j = some (.discarding id) → ObjectTurn w event id none
  | purges {j now : Nat} {rest : List Nat} : event = .goesOn j now → w.jobs j = some (.deleting id rest) →
    ObjectTurn w event id none
  | collects {j now : Nat} {rest : List Nat} : event = .goesOn j now → w.jobs j = some (.unnamed id rest) →
    ObjectTurn w event id none

inductive UploadTurn (deps : Deps) (w : World) (event : Event) (id : Nat) : Option Nat → Prop
  | keeps : UploadTurn deps w event id (w.uploads id)
  | records {j now at_ : Nat} {input : MailMessageInput} : event = .goesOn j now → w.jobs j = some (.uploading id input at_) →
      UploadTurn deps w event id (some at_)
  | commits {j now at_ : Nat} {input : MailMessageInput} {r : MailMessageRow} :
    event = .goesOn j now → w.jobs j = some (.inserting id input at_) →
      (w.step deps event).rows id = some r → r.contentRef = true → UploadTurn deps w event id none
  | discards {j now : Nat} : event = .goesOn j now → w.jobs j = some (.discarded id) → UploadTurn deps w event id none
  | collects {j now : Nat} {rest : List Nat} : event = .goesOn j now → w.jobs j = some (.collected id rest) →
    UploadTurn deps w event id none

theorem updated_stores (id : Nat) (statement : MailMessageRow → Option MailMessageRow) :
    (w.updated id statement).objects = w.objects ∧ (w.updated id statement).uploads = w.uploads ∧
    (w.updated id statement).purged = w.purged := by
  unfold World.updated
  cases hw : w.update id statement with
  | none => exact ⟨rfl, rfl, rfl⟩
  | some w' =>
    obtain ⟨_, _, _, _, rfl⟩ := update_eq_some hw
    exact ⟨rfl, rfl, rfl⟩

theorem settles_stores (j : Nat) (a : Attempt) (settled : Settled) (now : Nat) : (w.settles j a settled now).objects = w.objects ∧
    (w.settles j a settled now).uploads = w.uploads ∧ (w.settles j a settled now).purged = w.purged := by
  unfold World.settles
  split
  · exact ⟨rfl, rfl, rfl⟩
  · next hw =>
    obtain ⟨_, _, _, _, rfl⟩ := update_eq_some hw
    exact ⟨rfl, rfl, rfl⟩

theorem insertMessage_stores (id : Nat) (input : MailMessageInput) (now : Nat) :
    (w.insertMessage deps id input now).objects = w.objects ∧ (w.insertMessage deps id input now).uploads = w.uploads ∧
      (w.insertMessage deps id input now).purged = w.purged := by
  rw [insertMessage_eq]
  split <;> exact ⟨rfl, rfl, rfl⟩

theorem dropUpload_stores (w : World) (id : Nat) : (w.dropUpload id).objects = w.objects ∧
    (w.dropUpload id).purged = w.purged := by
  unfold World.dropUpload
  split <;> exact ⟨rfl, rfl⟩

/-- A job that writes to neither store leaves both. -/
def Job.stores : Job → Bool
  | .uploading .. | .putting .. | .inserting .. | .discarding _ | .discarded _ | .deleting .. | .unnamed .. | .collected .. =>
    true
  | _ => false

variable {r' r : MailMessageRow} {input : MailMessageInput} {rest : List Nat}

variable {j now : Nat}

theorem goesOn_stores {job : Job} (h : job.stores = false) : (w.goesOn deps j now job).objects = w.objects ∧
    (w.goesOn deps j now job).uploads = w.uploads ∧ (w.goesOn deps j now job).purged = w.purged := by
  cases job with
  | finding id input =>
    simp only [World.goesOn, World.setJob, World.answer]
    split
    · exact ⟨rfl, rfl, rfl⟩
    · split <;> exact ⟨rfl, rfl, rfl⟩
  | claiming id row at_ =>
    simp only [World.goesOn]
    split
    · exact ⟨rfl, rfl, rfl⟩
    · next hw =>
      obtain ⟨_, _, _, _, rfl⟩ := update_eq_some hw
      exact ⟨rfl, rfl, rfl⟩
  | stale a =>
    simp only [World.goesOn]
    split
    · split
      · exact ⟨rfl, rfl, rfl⟩
      · next hw =>
        obtain ⟨_, _, _, _, rfl⟩ := update_eq_some hw
        exact ⟨rfl, rfl, rfl⟩
    · exact settles_stores j a _ now
  | settling a settled => exact settles_stores j a settled now
  | unnaming id rest => exact updated_stores id clearContentRef
  | clearing | selecting | collecting | reading | sending => exact ⟨rfl, rfl, rfl⟩
  | uploading | putting | inserting | discarding | discarded | deleting | unnamed | collected => cases h

/-- A step that is no job's own leaves both stores. -/
theorem step_stores (h : ∀ j now, event ≠ .goesOn j now) : (w.step deps event).objects = w.objects ∧
    (w.step deps event).uploads = w.uploads ∧ (w.step deps event).purged = w.purged := by
  cases event with
  | goesOn j now => exact absurd rfl (h j now)
  | release id now => exact updated_stores id _
  | drop id now => exact updated_stores id _
  | requeue id now =>
    simp only [World.step]
    split
    · exact ⟨rfl, rfl, rfl⟩
    · next hw =>
      obtain ⟨_, _, _, _, rfl⟩ := update_eq_some hw
      exact ⟨rfl, rfl, rfl⟩
  | replay sender idempotencyKey fingerprint =>
    simp only [World.step, World.answer]
    split
    · exact ⟨rfl, rfl, rfl⟩
    · split <;> exact ⟨rfl, rfl, rfl⟩
  | accept | dispatchMail | collectUploads | readsContent | handsOver =>
    simp only [World.step]
    split <;> exact ⟨rfl, rfl, rfl⟩
  | purge | crash => exact ⟨rfl, rfl, rfl⟩

/-- Nor does a job's own step, unless the job is at one of them. -/
theorem step_quiet (h : ¬∃ j now job, event = .goesOn j now ∧ w.jobs j = some job ∧ job.stores = true) :
    (w.step deps event).objects = w.objects ∧ (w.step deps event).uploads = w.uploads ∧
    (w.step deps event).purged = w.purged := by
  by_cases hgoes : ∃ j now, event = .goesOn j now
  · obtain ⟨j, now, rfl⟩ := hgoes
    simp only [World.step]
    cases hjob : w.jobs j with
    | none => exact ⟨rfl, rfl, rfl⟩
    | some job => exact goesOn_stores (Bool.eq_false_iff.mpr fun hstores => h ⟨j, now, job, rfl, hjob, hstores⟩)
  · exact step_stores fun j now he => hgoes ⟨j, now, he⟩

theorem update_object {id id' : Nat} {new : Option String} (h : id = id' → ObjectTurn w event id new) :
    ObjectTurn w event id (Function.update w.objects id' new id) := by
  by_cases hid : id = id'
  · subst hid
    rw [Function.update_self]
    exact h rfl
  · rw [Function.update_of_ne hid]
    exact .keeps

theorem update_upload {id id' : Nat} {new : Option Nat} (h : id = id' → UploadTurn deps w event id new) :
    UploadTurn deps w event id (Function.update w.uploads id' new id) := by
  by_cases hid : id = id'
  · subst hid
    rw [Function.update_self]
    exact h rfl
  · rw [Function.update_of_ne hid]
    exact .keeps

theorem step_object (deps : Deps) (w : World) (event : Event) (id : Nat) :
    ObjectTurn w event id ((w.step deps event).objects id) := by
  by_cases hgoes : ∃ j now job, event = .goesOn j now ∧ w.jobs j = some job ∧ job.stores = true
  · obtain ⟨j, now, job, rfl, hjob, hstores⟩ := hgoes
    simp only [World.step, hjob]
    cases job with
    | putting id' input at_ =>
      refine update_object fun hid => ?_
      subst hid
      exact .puts rfl hjob
    | discarding id' => exact update_object fun hid => .discards rfl (hid ▸ hjob)
    | deleting id' rest => exact update_object fun hid => .purges rfl (hid ▸ hjob)
    | unnamed id' rest => exact update_object fun hid => .collects rfl (hid ▸ hjob)
    | inserting id' input at_ =>
      simp only [World.goesOn, World.setJob]
      rw [(dropUpload_stores _ id').1, (insertMessage_stores id' input at_).1]
      exact .keeps
    | uploading | discarded | collected => exact .keeps
    | _ => cases hstores
  · rw [(step_quiet hgoes).1]
    exact .keeps

theorem step_upload (deps : Deps) (w : World) (event : Event) (id : Nat) :
    UploadTurn deps w event id ((w.step deps event).uploads id) := by
  by_cases hgoes : ∃ j now job, event = .goesOn j now ∧ w.jobs j = some job ∧ job.stores = true
  · obtain ⟨j, now, job, rfl, hjob, hstores⟩ := hgoes
    have hrows : (w.step deps (.goesOn j now)).rows = (w.goesOn deps j now job).rows := by simp only [World.step, hjob]
    simp only [World.step, hjob]
    cases job with
    | uploading id' input at_ =>
      refine update_upload fun hid => ?_
      subst hid
      exact .records rfl hjob
    | inserting id' input at_ =>
      simp only [World.goesOn, World.setJob, World.dropUpload] at hrows ⊢
      rw [(insertMessage_stores id' input at_).2.1] at *
      split
      · next hnamed =>
        obtain ⟨r, hr, hcontent⟩ := (Option.any_eq_true _ _).mp hnamed
        refine update_upload fun hid => ?_
        subst hid
        refine .commits rfl hjob ?_ hcontent
        rw [hrows, if_pos hnamed]
        exact hr
      · rw [(insertMessage_stores id' input at_).2.1]
        exact .keeps
    | discarded id' => exact update_upload fun hid => .discards rfl (hid ▸ hjob)
    | collected id' rest => exact update_upload fun hid => .collects rfl (hid ▸ hjob)
    | putting | discarding | deleting | unnamed => exact .keeps
    | _ => cases hstores
  · rw [(step_quiet hgoes).2.1]
    exact .keeps

/-- A purge's deletion is remembered. -/
theorem step_purged (id : Nat) : (w.purged id = true → (w.step deps event).purged id = true) ∧
    ∀ j now rest, event = .goesOn j now → w.jobs j = some (.deleting id rest) → (w.step deps event).purged id = true := by
  by_cases hgoes : ∃ j now job, event = .goesOn j now ∧ w.jobs j = some job ∧ job.stores = true
  · obtain ⟨j, now, job, rfl, hjob, hstores⟩ := hgoes
    have hsame (hpurged : (w.goesOn deps j now job).purged = w.purged) (hnot : ∀ rest, job ≠ .deleting id rest) :
        (w.purged id = true → (w.goesOn deps j now job).purged id = true) ∧
        ∀ j' now' rest, Event.goesOn j now = .goesOn j' now' → w.jobs j' = some (.deleting id rest) →
          (w.goesOn deps j now job).purged id = true := by
      refine ⟨fun h => hpurged ▸ h, fun j' now' rest he hdeleting => ?_⟩
      cases he
      rw [hjob] at hdeleting
      exact absurd (Option.some.inj hdeleting) (hnot rest)
    simp only [World.step, hjob]
    cases job with
    | deleting id' rest =>
      by_cases hid : id = id'
      · subst hid
        exact ⟨fun _ => Function.update_self _ _ _, fun _ _ _ _ _ => Function.update_self _ _ _⟩
      · refine ⟨fun h => (Function.update_of_ne hid _ _).trans h, fun j' now' rest' he hdeleting => ?_⟩
        cases he
        rw [hjob] at hdeleting
        cases hdeleting
        exact absurd rfl hid
    | inserting id' input at_ =>
      refine hsame ?_ (fun _ h => by cases h)
      simp only [World.goesOn, World.setJob]
      rw [(dropUpload_stores _ id').2, (insertMessage_stores id' input at_).2.2]
    | uploading | putting | discarding | discarded | unnamed | collected => exact hsame rfl (fun _ h => by cases h)
    | _ => cases hstores
  · rw [(step_quiet hgoes).2.2]
    exact ⟨fun h => h, fun j now rest hevent hdeleting => absurd ⟨j, now, _, hevent, hdeleting, rfl⟩ hgoes⟩

/-- What a step does to what a row says of its content. -/
structure ContentTurn (deps : Deps) (w : World) (event : Event) (id : Nat) (r r' : MailMessageRow) : Prop where
  content : r'.content = r.content ∨ r'.content = none
  named : r'.contentRef = r.contentRef ∨ r'.contentRef = false ∧ ∃ j now rest, event = .goesOn j now ∧
    w.jobs j = some (.unnaming id rest)
  live : r'.state.final = false → r'.contentRef = r.contentRef ∧
    (r.state.final = false ∨ ∃ now, event = .requeue id now ∧ requeue (requeueableMailStates deps.sender) now r = some r')

theorem Filed.row_content (h : Filed w) {id : Nat} (hr' : (w.step deps event).rows id = some r') :
    (∃ r, w.rows id = some r ∧ ContentTurn deps w event id r r') ∨
    ∃ now at_ input, event = .goesOn id now ∧ w.jobs id = some (.inserting id input at_) ∧ r' = inserted deps input at_ := by
  have hturn := step_row deps w event id
  rw [hr'] at hturn
  generalize hrow : some r' = row, (w.step deps event).claims id = c, (w.step deps event).requeues id = q at hturn
  cases hturn with
  | keeps => exact .inl ⟨r', hrow.symm, .inl rfl, .inl rfl, fun hlive => ⟨rfl, .inl hlive⟩⟩
  | inserts hevent hjob _ =>
    cases hrow
    obtain ⟨rfl, _, _⟩ := h.inserts _ _ id _ hjob rfl
    exact .inr ⟨_, _, _, hevent, hjob, rfl⟩
  | decides hr _ hstatement =>
    cases hrow
    obtain ⟨hheld, rfl⟩ := decide_eq_some hstatement
    exact .inl ⟨_, hr, .inl rfl, .inl rfl, fun _ => ⟨rfl, .inl (by rw [hheld]; rfl)⟩⟩
  | requeues hevent hr hstatement =>
    cases hrow
    have hagain := hstatement
    obtain ⟨_, _, rfl⟩ := requeue_eq_some hstatement
    exact .inl ⟨_, hr, .inl rfl, .inl rfl, fun _ => ⟨rfl, .inr ⟨_, hevent, hagain⟩⟩⟩
  | claims _ _ hr hstatement =>
    cases hrow
    obtain ⟨hqueued, _, rfl⟩ := claim_eq_some hstatement
    exact .inl ⟨_, hr, .inl rfl, .inl rfl, fun _ => ⟨rfl, .inl (by rw [hqueued]; rfl)⟩⟩
  | reclaims _ _ _ _ hr hstatement =>
    cases hrow
    obtain ⟨hsending, _, rfl⟩ := reclaim_eq_some hstatement
    exact .inl ⟨_, hr, .inl rfl, .inl rfl, fun _ => ⟨rfl, .inl (by rw [hsending]; rfl)⟩⟩
  | settles _ _ _ hr hstatement =>
    cases hrow
    obtain ⟨hsending, _, _, _, _, hnamed, hcontent⟩ := settle_eq_some hstatement
    exact .inl ⟨_, hr, .inl hcontent, .inl hnamed, fun _ => ⟨hnamed, .inl (by rw [hsending]; rfl)⟩⟩
  | clears hr hstatement hnamed =>
    cases hrow
    obtain ⟨hfinal, hstate, _⟩ := clears_eq_some hstatement
    refine .inl ⟨_, hr, ?_, ?_, fun hlive => ?_⟩
    · rcases hstatement with hstatement | hstatement
      · unfold clearContent at hstatement
        split at hstatement <;> cases hstatement
        exact .inr rfl
      · unfold clearContentRef at hstatement
        split at hstatement <;> cases hstatement
        exact .inl rfl
    · rcases hnamed with hnamed | hunnaming
      · exact .inl hnamed
      · rcases hstatement with hstatement | hstatement
        · exact .inl (clearContent_contentRef hstatement)
        · unfold clearContentRef at hstatement
          split at hstatement <;> cases hstatement
          exact .inr ⟨rfl, hunnaming⟩
    · rw [hstate, hfinal] at hlive
      cases hlive

/-! ## The condition -/

/-- A purge deletes an object only while its message is final, a requeue takes no message whose object a purge deleted,
    and a collection takes up no upload whose insert, filed under the message's id, has yet to commit. -/
def kept (deps : Deps) (w : World) : Event → Bool
  | .goesOn j _ =>
    match w.jobs j with
    | some (.deleting id _) => (w.rows id).all (·.state.final)
    | some (.collecting id _) => ((w.jobs id).bind Job.insert).isNone
    | _ => true
  | .requeue id now => ((w.rows id).bind (requeue (requeueableMailStates deps.sender) now)).isNone || !w.purged id
  | _ => true

def keptAll (deps : Deps) (w : World) : List Event → Bool
  | [] => true
  | event :: rest => kept deps w event && keptAll deps (w.step deps event) rest

/-! ## What every step keeps -/

/-- The insert of the id has committed, or stopped. -/
def Inserted (w : World) (id : Nat) : Prop := ∀ job input, w.jobs id = some job → job.insert ≠ some (id, input)

def Named (w : World) (id : Nat) : Prop := ∃ r, w.rows id = some r ∧ r.contentRef = true

structure Kept (w : World) : Prop where
  filed : Filed w
  fresh : ∀ id text, w.objects id = some text → id < w.nextId
  uploading : ∀ j id input at_, w.jobs j = some (.uploading id input at_) → w.objects id = none
  putting : ∀ j id input at_, w.jobs j = some (.putting id input at_) → (w.uploads id).isSome ∧ w.objects id = none
  inserting : ∀ j id input at_, w.jobs j = some (.inserting id input at_) → (w.uploads id).isSome ∧
    w.objects id = some input.content
  discarding : ∀ j id, w.jobs j = some (.discarding id) → j = id ∧ w.rows id = none
  discarded : ∀ j id, w.jobs j = some (.discarded id) → j = id ∧ w.rows id = none ∧ w.objects id = none
  deleting : ∀ j id rest, w.jobs j = some (.deleting id rest) → ∀ x ∈ id :: rest, (w.rows x).isSome
  unnaming : ∀ j id rest, w.jobs j = some (.unnaming id rest) → w.objects id = none ∧ ∀ x ∈ id :: rest, (w.rows x).isSome
  collecting : ∀ j id rest, w.jobs j = some (.collecting id rest) → ∀ x ∈ id :: rest, x < w.nextId
  unnamed : ∀ j id rest, w.jobs j = some (.unnamed id rest) → Inserted w id ∧ ¬Named w id ∧ ∀ x ∈ id :: rest, x < w.nextId
  collected : ∀ j id rest, w.jobs j = some (.collected id rest) → Inserted w id ∧ ((w.objects id).isSome → Named w id) ∧
    ∀ x ∈ id :: rest, x < w.nextId
  text : ∀ id text, w.objects id = some text → ∃ input, w.recorded id = some input ∧ text = input.content
  content : ∀ id r, w.rows id = some r → r.content = none
  live : ∀ id r, w.rows id = some r → r.state.final = false → r.contentRef = true ∧ (w.objects id).isSome
  missing : ∀ id r, w.rows id = some r → r.contentRef = true → w.objects id = none → w.purged id = true
  found : ∀ id, (w.objects id).isSome → Named w id ∨ (w.uploads id).isSome

theorem kept_start : Kept .start :=
  ⟨filed_start, (fun _ _ h => nomatch h), (fun _ _ _ _ h => nomatch h), (fun _ _ _ _ h => nomatch h),
    (fun _ _ _ _ h => nomatch h),
    (fun _ _ h => nomatch h), (fun _ _ h => nomatch h), (fun _ _ _ h => nomatch h), (fun _ _ _ h => nomatch h),
    (fun _ _ _ h => nomatch h),
    (fun _ _ _ h => nomatch h), (fun _ _ _ h => nomatch h), (fun _ _ h => nomatch h), (fun _ _ h => nomatch h),
    (fun _ _ h => nomatch h), (fun _ _ h => nomatch h), (fun _ h => nomatch h)⟩

theorem step_rows_isSome {id : Nat} (h : (w.rows id).isSome) : ((w.step deps event).rows id).isSome := by
  obtain ⟨r, hr⟩ := Option.isSome_iff_exists.mp h
  exact (step_row deps w event id).stays hr

theorem Kept.object_none (h : Kept w) {id : Nat} (hnone : w.objects id = none)
    (hput : ∀ now input at_, event = .goesOn id now → w.jobs id ≠ some (.putting id input at_)) :
    (w.step deps event).objects id = none := by
  have hturn := step_object deps w event id
  generalize (w.step deps event).objects id = object at hturn ⊢
  cases hturn with
  | keeps => exact hnone
  | puts hevent hjob =>
    obtain ⟨rfl, _, _⟩ := h.filed.inserts _ _ id _ hjob rfl
    exact absurd hjob (hput _ _ _ hevent)
  | discards | purges | collects => rfl

theorem Inserted.step {id : Nat} (h : Inserted w id) (hlt : id < w.nextId) : Inserted (w.step deps event) id := by
  intro job input hjob hinsert
  cases step_job hjob with
  | keeps hold _ _ => exact h job input hold hinsert
  | accepts _ hstarts _ _ => exact absurd hstarts.1 (Nat.ne_of_lt hlt)
  | dispatches _ _ hdispatches => rcases dispatches_insert hdispatches with ⟨rfl, _⟩ | ⟨rfl, _⟩ <;> cases hinsert
  | purges _ => cases hinsert
  | collects _ _ => cases hinsert
  | next _ hold hnext => exact h _ input hold (hnext.insert hinsert).1
  | reads _ _ hnew => rcases hnew with rfl | rfl <;> cases hinsert
  | hands _ _ _ => cases hinsert

theorem Kept.not_named (h : Kept w) {id : Nat} (hnot : ¬Named w id) (hinserted : Inserted w id) :
    ¬Named (w.step deps event) id := by
  rintro ⟨r', hr', hnamed⟩
  rcases h.filed.row_content hr' with ⟨r, hr, hturn⟩ | ⟨_, _, input, _, hjob, _⟩
  · rcases hturn.named with heq | ⟨hfalse, _⟩
    · exact hnot ⟨r, hr, heq ▸ hnamed⟩
    · rw [hnamed] at hfalse
      cases hfalse
  · exact hinserted _ input hjob rfl

/-- A row lets go of its object once it is gone. -/
theorem Kept.named (h : Kept w) {id : Nat} (hnamed : Named w id) (hsome : (w.objects id).isSome) :
    Named (w.step deps event) id := by
  obtain ⟨r, hr, hname⟩ := hnamed
  obtain ⟨r', hr'⟩ := Option.isSome_iff_exists.mp ((step_row deps w event id).stays hr)
  refine ⟨r', hr', ?_⟩
  rcases h.filed.row_content hr' with ⟨s, hs, hturn⟩ | ⟨_, _, input, _, hjob, _⟩
  · rw [hr] at hs
    cases hs
    rcases hturn.named with heq | ⟨_, j, now, rest, _, hunnaming⟩
    · rw [heq, hname]
    · rw [(h.unnaming j id rest hunnaming).1] at hsome
      cases hsome
  · obtain ⟨_, hnone, _⟩ := h.filed.inserts _ _ id input hjob rfl
    rw [hr] at hnone
    cases hnone

/-- Only its own insert, a purge and a collection touch an upload and its object, and neither of these while the insert runs. -/
theorem Kept.insert_keeps (h : Kept w) {id : Nat} {job : Job} (hjob : w.jobs id = some job)
    (hinsert : job.insert = some (id, input)) (hgoes : ∀ now, event ≠ .goesOn id now) :
    (w.step deps event).objects id = w.objects id ∧ ((w.uploads id).isSome → ((w.step deps event).uploads id).isSome) := by
  have hrunning (hinserted : Inserted w id) : False := hinserted job input hjob hinsert
  obtain ⟨_, hnone, _⟩ := h.filed.inserts id job id input hjob hinsert
  constructor
  · have hturn := step_object deps w event id
    generalize (w.step deps event).objects id = object at hturn ⊢
    cases hturn with
    | keeps => rfl
    | puts hevent hputting =>
      obtain ⟨rfl, _, _⟩ := h.filed.inserts _ _ id _ hputting rfl
      exact absurd hevent (hgoes _)
    | discards hevent hdiscarding =>
      obtain ⟨rfl, _⟩ := h.discarding _ id hdiscarding
      exact absurd hevent (hgoes _)
    | purges hevent hdeleting =>
      have hsome := h.deleting _ id _ hdeleting id List.mem_cons_self
      rw [hnone] at hsome
      cases hsome
    | collects hevent hunnamed => exact (hrunning (h.unnamed _ id _ hunnamed).1).elim
  · intro hsome
    have hturn := step_upload deps w event id
    generalize (w.step deps event).uploads id = upload at hturn ⊢
    cases hturn with
    | keeps => exact hsome
    | records => rfl
    | commits hevent hinserting _ _ =>
      obtain ⟨rfl, _, _⟩ := h.filed.inserts _ _ id _ hinserting rfl
      exact absurd hevent (hgoes _)
    | discards hevent hdiscarded =>
      obtain ⟨rfl, _⟩ := h.discarded _ id hdiscarded
      exact absurd hevent (hgoes _)
    | collects _ hcollected => exact (hrunning (h.collected _ id _ hcollected).1).elim

theorem kept_deleting {j now id : Nat} (h : kept deps w (.goesOn j now) = true) (hjob : w.jobs j = some (.deleting id rest))
    (hr : w.rows id = some r) : r.state.final = true := by
  simpa [kept, hjob, hr] using h

theorem kept_collecting {j now id : Nat} (h : kept deps w (.goesOn j now) = true) (hjob : w.jobs j = some (.collecting id rest)) :
    Inserted w id := by
  intro job input hinserting hinsert
  simp [kept, hjob, hinserting, hinsert] at h

theorem kept_requeue {id : Nat} (h : kept deps w (.requeue id now) = true) (hr : w.rows id = some r)
    (hstatement : requeue (requeueableMailStates deps.sender) now r = some r') : w.purged id = false := by
  simpa [kept, hr, hstatement] using h

section
variable (h : Kept w)
include h

theorem Kept.object_live (hkept : kept deps w event = true) {id : Nat} (hr : w.rows id = some r) (hlive : r.state.final = false) :
    ((w.step deps event).objects id).isSome := by
  obtain ⟨hnamed, hsome⟩ := h.live id r hr hlive
  have hturn := step_object deps w event id
  generalize (w.step deps event).objects id = object at hturn ⊢
  cases hturn with
  | keeps => exact hsome
  | puts => rfl
  | discards _ hdiscarding =>
    have hnone := (h.discarding _ id hdiscarding).2
    rw [hr] at hnone
    cases hnone
  | purges hevent hdeleting =>
    subst hevent
    rw [kept_deleting hkept hdeleting hr] at hlive
    cases hlive
  | collects _ hunnamed => exact absurd ⟨r, hr, hnamed⟩ (h.unnamed _ id _ hunnamed).2.1

/-! ## The jobs' own stages -/

theorem Kept.uploading_step {j id at_ : Nat} (hjob : (w.step deps event).jobs j = some (.uploading id input at_)) :
    (w.step deps event).objects id = none := by
  cases step_job hjob with
  | keeps hold hgoes _ =>
    obtain ⟨rfl, _, _⟩ := h.filed.inserts j _ id input hold rfl
    rw [(h.insert_keeps hold rfl hgoes).1]
    exact h.uploading j j input at_ hold
  | accepts _ hstarts _ hnew =>
    rcases hnew with hnew | ⟨hnew, _⟩
    · cases hnew
      refine h.object_none ?_ fun _ _ _ _ hputting => ?_
      · refine Option.eq_none_iff_forall_ne_some.mpr fun text htext => ?_
        exact absurd (h.fresh j text htext) (hstarts.1 ▸ Nat.lt_irrefl _)
      · exact absurd (h.filed.job_lt hputting) (hstarts.1 ▸ Nat.lt_irrefl _)
    · cases hnew
  | dispatches _ _ hdispatches => rcases dispatches_insert hdispatches with ⟨hnew, _⟩ | ⟨hnew, _⟩ <;> cases hnew
  | next _ _ hnext => cases hnext
  | reads _ _ hnew => rcases hnew with hnew | hnew <;> cases hnew

theorem Kept.putting_step {j id at_ : Nat} (hjob : (w.step deps event).jobs j = some (.putting id input at_)) :
    ((w.step deps event).uploads id).isSome ∧ (w.step deps event).objects id = none := by
  rcases step_later hjob rfl with ⟨hold, hgoes⟩ | ⟨now, old, hevent, hold, hnext⟩
  · obtain ⟨rfl, _, _⟩ := h.filed.inserts j _ id input hold rfl
    obtain ⟨hobject, hupload⟩ := h.insert_keeps hold rfl hgoes
    obtain ⟨hsome, hnone⟩ := h.putting j j input at_ hold
    exact ⟨hupload hsome, hobject.trans hnone⟩
  · cases hnext with
    | puts =>
      subst hevent
      simp only [World.step, hold]
      refine ⟨?_, h.uploading j id input at_ hold⟩
      show (Function.update w.uploads id (some at_) id).isSome
      rw [Function.update_self]
      rfl

theorem Kept.inserting_step (hobjects : deps.objects = true) {j id at_ : Nat}
    (hjob : (w.step deps event).jobs j = some (.inserting id input at_)) :
    ((w.step deps event).uploads id).isSome ∧ (w.step deps event).objects id = some input.content := by
  cases step_job hjob with
  | keeps hold hgoes _ =>
    obtain ⟨rfl, _, _⟩ := h.filed.inserts j _ id input hold rfl
    obtain ⟨hobject, hupload⟩ := h.insert_keeps hold rfl hgoes
    obtain ⟨hsome, htext⟩ := h.inserting j j input at_ hold
    exact ⟨hupload hsome, hobject.trans htext⟩
  | accepts _ _ _ hnew =>
    rcases hnew with hnew | ⟨_, hfalse⟩
    · cases hnew
    · rw [hobjects] at hfalse
      cases hfalse
  | dispatches _ _ hdispatches => rcases dispatches_insert hdispatches with ⟨hnew, _⟩ | ⟨hnew, _⟩ <;> cases hnew
  | next hevent hold hnext =>
    cases hnext with
    | inserts =>
      subst hevent
      simp only [World.step, hold]
      exact ⟨(h.putting j id input at_ hold).1, Function.update_self _ _ _⟩
  | reads _ _ hnew => rcases hnew with hnew | hnew <;> cases hnew

/-- The insert that lost its key has no row: the row found is another's. -/
theorem Kept.discarding_step {id : Nat} (hjob : (w.step deps event).jobs j = some (.discarding id)) :
    j = id ∧ (w.step deps event).rows id = none := by
  rcases step_later hjob rfl with ⟨hold, _⟩ | ⟨now, old, _, hold, hnext⟩
  · obtain ⟨rfl, hnone⟩ := h.discarding j id hold
    refine ⟨rfl, h.filed.rows_none hnone fun _ _ _ _ hinserting => ?_⟩
    rw [hold] at hinserting
    cases hinserting
  · cases hnext with
    | discards hfind hother =>
      obtain ⟨rfl, hrecorded⟩ := h.filed.finds j id _ hold
      refine ⟨rfl, h.filed.rows_none ?_ fun _ _ _ _ hinserting => ?_⟩
      · refine Option.eq_none_iff_forall_ne_some.mpr fun r hr => ?_
        obtain ⟨input, hinput, hsender, hkey, _⟩ := h.filed.rows j r hr
        rw [hrecorded] at hinput
        cases hinput
        exact hother (h.filed.find_row hfind hr hsender hkey)
      · rw [hold] at hinserting
        cases hinserting

theorem Kept.discarded_step {id : Nat} (hjob : (w.step deps event).jobs j = some (.discarded id)) :
    j = id ∧ (w.step deps event).rows id = none ∧ (w.step deps event).objects id = none := by
  have hother (now : Nat) (input : MailMessageInput) (at_ : Nat) (job : Job) (hold : w.jobs id = some job)
      (hnot : job.insert = none) : w.jobs id ≠ some (.inserting id input at_) ∧ w.jobs id ≠ some (.putting id input at_) := by
    constructor <;>
    · intro hinsert
      rw [hold] at hinsert
      cases hinsert
      cases hnot
  rcases step_later hjob rfl with ⟨hold, _⟩ | ⟨now, old, hevent, hold, hnext⟩
  · obtain ⟨rfl, hrow, hobject⟩ := h.discarded j id hold
    exact ⟨rfl, h.filed.rows_none hrow fun now at_ input _ => (hother now input at_ _ hold rfl).1,
      h.object_none hobject fun now input at_ _ => (hother now input at_ _ hold rfl).2⟩
  · cases hnext with
    | discarded =>
      obtain ⟨rfl, hrow⟩ := h.discarding j id hold
      refine ⟨rfl, h.filed.rows_none hrow fun now at_ input _ => (hother now input at_ _ hold rfl).1, ?_⟩
      subst hevent
      simp only [World.step, hold]
      exact Function.update_self _ _ _

theorem Kept.deleting_step {id : Nat} (hjob : (w.step deps event).jobs j = some (.deleting id rest)) :
    ∀ x ∈ id :: rest, ((w.step deps event).rows x).isSome := by
  intro x hx
  refine step_rows_isSome ?_
  rcases step_later hjob rfl with ⟨hold, _⟩ | ⟨now, old, _, hold, hnext⟩
  · exact h.deleting j id rest hold x hx
  · cases hnext with
    | deletes hselected =>
      obtain ⟨r, hr, _⟩ := hselected x hx
      exact Option.isSome_iff_exists.mpr ⟨r, hr⟩
    | deletesNext => exact (h.unnaming j _ _ hold).2 x (List.mem_cons_of_mem _ hx)

theorem Kept.unnaming_step {id : Nat} (hjob : (w.step deps event).jobs j = some (.unnaming id rest)) :
    (w.step deps event).objects id = none ∧ ∀ x ∈ id :: rest, ((w.step deps event).rows x).isSome := by
  rcases step_later hjob rfl with ⟨hold, _⟩ | ⟨now, old, hevent, hold, hnext⟩
  · obtain ⟨hnone, hrows⟩ := h.unnaming j id rest hold
    refine ⟨h.object_none hnone fun _ input _ _ hputting => ?_, fun x hx => step_rows_isSome (hrows x hx)⟩
    have hrow := (h.filed.inserts id _ id input hputting rfl).2.1
    have hsome := hrows id List.mem_cons_self
    rw [hrow] at hsome
    cases hsome
  · cases hnext with
    | unnames =>
      refine ⟨?_, fun x hx => step_rows_isSome (h.deleting j id rest hold x hx)⟩
      subst hevent
      simp only [World.step, hold]
      exact Function.update_self _ _ _

/-! ## Collections -/

theorem Kept.collecting_step {id : Nat} (hjob : (w.step deps event).jobs j = some (.collecting id rest)) :
    ∀ x ∈ id :: rest, x < (w.step deps event).nextId := by
  intro x hx
  refine Nat.lt_of_lt_of_le ?_ step_frame.1
  cases step_job hjob with
  | keeps hold _ _ => exact h.collecting j id rest hold x hx
  | accepts _ _ _ hnew => rcases hnew with hnew | ⟨hnew, _⟩ <;> cases hnew
  | dispatches _ _ hdispatches => rcases dispatches_insert hdispatches with ⟨hnew, _⟩ | ⟨hnew, _⟩ <;> cases hnew
  | collects _ hselected => exact hselected x hx
  | next hevent hold hnext =>
    cases hnext with
    | collectsNext => exact (h.collected j _ _ hold).2.2 x (List.mem_cons_of_mem _ hx)
  | reads _ _ hnew => rcases hnew with hnew | hnew <;> cases hnew

theorem Kept.unnamed_step (hkept : kept deps w event = true) {id : Nat}
    (hjob : (w.step deps event).jobs j = some (.unnamed id rest)) :
    Inserted (w.step deps event) id ∧ ¬Named (w.step deps event) id ∧ ∀ x ∈ id :: rest, x < (w.step deps event).nextId := by
  have hstep (hinserted : Inserted w id) (hnot : ¬Named w id) (hlt : ∀ x ∈ id :: rest, x < w.nextId) :
      Inserted (w.step deps event) id ∧ ¬Named (w.step deps event) id ∧ ∀ x ∈ id :: rest, x < (w.step deps event).nextId :=
    ⟨hinserted.step (hlt id List.mem_cons_self), h.not_named hnot hinserted,
      fun x hx => Nat.lt_of_lt_of_le (hlt x hx) step_frame.1⟩
  rcases step_later hjob rfl with ⟨hold, _⟩ | ⟨now, old, hevent, hold, hnext⟩
  · obtain ⟨hinserted, hnot, hlt⟩ := h.unnamed j id rest hold
    exact hstep hinserted hnot hlt
  · cases hnext with
    | unnamed hfree =>
      refine hstep (kept_collecting (hevent ▸ hkept) hold) (fun hnamed => ?_) (h.collecting j id rest hold)
      obtain ⟨r, hr, hname⟩ := hnamed
      rw [hfree r hr] at hname
      cases hname

theorem Kept.collected_step (hkept : kept deps w event = true) {id : Nat}
    (hjob : (w.step deps event).jobs j = some (.collected id rest)) : Inserted (w.step deps event) id ∧
    (((w.step deps event).objects id).isSome → Named (w.step deps event) id) ∧ ∀ x ∈ id :: rest,
    x < (w.step deps event).nextId := by
  have hstep (hinserted : Inserted w id) (hnamed : (w.objects id).isSome → Named w id) (hlt : ∀ x ∈ id :: rest, x < w.nextId) :
      Inserted (w.step deps event) id ∧ (((w.step deps event).objects id).isSome → Named (w.step deps event) id) ∧
      ∀ x ∈ id :: rest, x < (w.step deps event).nextId := by
    refine ⟨hinserted.step (hlt id List.mem_cons_self), fun hsome => ?_, fun x hx => Nat.lt_of_lt_of_le (hlt x hx) step_frame.1⟩
    cases hobject : w.objects id with
    | none =>
      rw [h.object_none hobject fun _ input _ _ hputting => hinserted _ input hputting rfl] at hsome
      cases hsome
    | some text =>
      have hwas : (w.objects id).isSome = true := by rw [hobject]; rfl
      exact h.named (hnamed hwas) hwas
  rcases step_later hjob rfl with ⟨hold, _⟩ | ⟨now, old, hevent, hold, hnext⟩
  · obtain ⟨hinserted, hnamed, hlt⟩ := h.collected j id rest hold
    exact hstep hinserted hnamed hlt
  · cases hnext with
    | named hr hname =>
      exact hstep (kept_collecting (hevent ▸ hkept) hold) (fun _ => ⟨_, hr, hname⟩) (h.collecting j id rest hold)
    | collected =>
      obtain ⟨hinserted, _, hlt⟩ := h.unnamed j id rest hold
      refine ⟨hinserted.step (hlt id List.mem_cons_self), fun hsome => ?_, fun x hx => Nat.lt_of_lt_of_le (hlt x hx) step_frame.1⟩
      subst hevent
      simp only [World.step, hold] at hsome
      have hsome' : (Function.update w.objects id none id).isSome = true := hsome
      rw [Function.update_self] at hsome'
      cases hsome'

/-! ## Rows and objects -/

theorem Kept.text_step {id : Nat} {text : String} (htext : (w.step deps event).objects id = some text) :
    id < w.nextId ∧ ∃ input, w.recorded id = some input ∧ text = input.content := by
  have hturn := step_object deps w event id
  rw [htext] at hturn
  generalize hobject : some text = object at hturn
  cases hturn with
  | keeps => exact ⟨h.fresh id text hobject.symm, h.text id text hobject.symm⟩
  | puts _ hputting =>
    obtain ⟨rfl, _, hrecorded⟩ := h.filed.inserts _ _ id _ hputting rfl
    cases hobject
    exact ⟨h.filed.job_lt hputting, _, hrecorded, rfl⟩
  | discards | purges | collects => cases hobject

/-- The insert's commit leaves the object it wrote. -/
theorem Kept.committed {id now at_ : Nat} (hevent : event = .goesOn id now) (hjob : w.jobs id = some (.inserting id input at_)) :
    (w.step deps event).objects id = some input.content := by
  have hsome := (h.inserting id id input at_ hjob).2
  have hother {j now' : Nat} {job : Job} (he : event = .goesOn j now') (hold : w.jobs j = some job) : job =
      .inserting id input at_ := by
    rw [hevent] at he
    cases he
    rw [hjob] at hold
    exact (Option.some.inj hold).symm
  have hturn := step_object deps w event id
  generalize (w.step deps event).objects id = object at hturn ⊢
  cases hturn with
  | keeps => exact hsome
  | puts he hold => cases hother he hold
  | discards he hold => cases hother he hold
  | purges he hold => cases hother he hold
  | collects he hold => cases hother he hold

/-- A message whose requeue meets the condition still has its object. -/
theorem Kept.requeued {id : Nat} (hkept : kept deps w (.requeue id now) = true) (hr : w.rows id = some r)
    (hstatement : requeue (requeueableMailStates deps.sender) now r = some r') :
    r.contentRef = true ∧ (w.objects id).isSome := by
  have hcontent := (requeue_eq_some hstatement).1
  rw [hasMailContent, h.content id r hr, Option.isSome_none, Bool.false_or] at hcontent
  refine ⟨hcontent, ?_⟩
  by_contra hnone
  have hpurged := h.missing id r hr hcontent (Option.not_isSome_iff_eq_none.mp hnone)
  rw [kept_requeue hkept hr hstatement] at hpurged
  cases hpurged

theorem Kept.live_step (hobjects : deps.objects = true) (hkept : kept deps w event = true) {id : Nat}
    (hr' : (w.step deps event).rows id = some r') (hlive : r'.state.final = false) :
    r'.contentRef = true ∧ ((w.step deps event).objects id).isSome := by
  rcases h.filed.row_content hr' with ⟨r, hr, hturn⟩ | ⟨now, at_, input, hevent, hjob, rfl⟩
  · obtain ⟨hnamed, hwas | ⟨now, hevent, hstatement⟩⟩ := hturn.live hlive
    · exact ⟨hnamed.trans (h.live id r hr hwas).1, h.object_live hkept hr hwas⟩
    · -- A requeued message named its object, and no purge deleted that.
      subst hevent
      have hquiet : ∀ j now', Event.requeue id now ≠ .goesOn j now' := fun _ _ he => nomatch he
      obtain ⟨hcontent, hsome⟩ := h.requeued hkept hr hstatement
      rw [(step_stores hquiet).1]
      exact ⟨hnamed.trans hcontent, hsome⟩
  · refine ⟨hobjects, ?_⟩
    rw [h.committed hevent hjob]
    rfl

theorem Kept.missing_step {id : Nat} (hr' : (w.step deps event).rows id = some r') (hnamed : r'.contentRef = true)
    (hnone : (w.step deps event).objects id = none) : (w.step deps event).purged id = true := by
  rcases h.filed.row_content hr' with ⟨r, hr, hturn⟩ | ⟨now, at_, input, hevent, hjob, rfl⟩
  · have hwas : r.contentRef = true := by
      rcases hturn.named with heq | ⟨hfalse, _⟩
      · exact heq ▸ hnamed
      · rw [hnamed] at hfalse
        cases hfalse
    have hobject := step_object deps w event id
    rw [hnone] at hobject
    generalize hnew : none = object at hobject
    cases hobject with
    | keeps => exact (step_purged id).1 (h.missing id r hr hwas hnew.symm)
    | puts _ _ => cases hnew
    | discards _ hdiscarding =>
      have hrow := (h.discarding _ id hdiscarding).2
      rw [hr] at hrow
      cases hrow
    | purges hevent hdeleting => exact (step_purged id).2 _ _ _ hevent hdeleting
    | collects _ hunnamed => exact absurd ⟨r, hr, hwas⟩ (h.unnamed _ id _ hunnamed).2.1
  · rw [h.committed hevent hjob] at hnone
    cases hnone

theorem Kept.found_step {id : Nat} (hsome : ((w.step deps event).objects id).isSome) :
    Named (w.step deps event) id ∨ ((w.step deps event).uploads id).isSome := by
  have hobject := step_object deps w event id
  generalize (w.step deps event).objects id = object at hobject hsome
  cases hobject with
  | keeps =>
    rcases h.found id hsome with hnamed | hupload
    · exact .inl (h.named hnamed hsome)
    · have hturn := step_upload deps w event id
      generalize (w.step deps event).uploads id = upload at hturn ⊢
      cases hturn with
      | keeps => exact .inr hupload
      | records => exact .inr rfl
      | commits _ _ hr hnamed => exact .inl ⟨_, hr, hnamed⟩
      | discards _ hdiscarded =>
        rw [(h.discarded _ id hdiscarded).2.2] at hsome
        cases hsome
      | collects _ hcollected => exact .inl (h.named ((h.collected _ id _ hcollected).2.1 hsome) hsome)
  | puts hevent hputting =>
    obtain ⟨rfl, _, _⟩ := h.filed.inserts _ _ id _ hputting rfl
    right
    subst hevent
    simp only [World.step, hputting]
    exact (h.putting _ _ _ _ hputting).1
  | discards | purges | collects => cases hsome

theorem kept_step (hobjects : deps.objects = true) (hkept : kept deps w event = true) : Kept (w.step deps event) where
  filed := filed_step h.filed
  fresh _ _ htext := Nat.lt_of_lt_of_le (h.text_step htext).1 step_frame.1
  uploading _ _ _ _ hjob := h.uploading_step hjob
  putting _ _ _ _ hjob := h.putting_step hjob
  inserting _ _ _ _ hjob := h.inserting_step hobjects hjob
  discarding _ _ hjob := h.discarding_step hjob
  discarded _ _ hjob := h.discarded_step hjob
  deleting _ _ _ hjob := h.deleting_step hjob
  unnaming _ _ _ hjob := h.unnaming_step hjob
  collecting _ _ _ hjob := h.collecting_step hjob
  unnamed _ _ _ hjob := h.unnamed_step hkept hjob
  collected _ _ _ hjob := h.collected_step hkept hjob
  text id text htext := by
    obtain ⟨hlt, hrecorded⟩ := h.text_step htext
    rw [step_frame.2 id hlt]
    exact hrecorded
  content id r' hr' := by
    rcases h.filed.row_content hr' with ⟨r, hr, hturn⟩ | ⟨_, _, _, _, _, rfl⟩
    · rcases hturn.content with heq | hnone
      · exact heq.trans (h.content id r hr)
      · exact hnone
    · exact if_pos hobjects
  live _ _ hr' hlive := h.live_step hobjects hkept hr' hlive
  missing _ _ hr' hnamed hnone := h.missing_step hr' hnamed hnone
  found _ hsome := h.found_step hsome

theorem kept_after (hobjects : deps.objects = true) (events : List Event) (hkept : keptAll deps w events = true) :
    Kept (w.after deps events) := by
  induction events generalizing w with
  | nil => exact h
  | cons event rest ih =>
    obtain ⟨hevent, hrest⟩ := (Bool.and_eq_true _ _).mp hkept
    exact ih (kept_step h hobjects hevent) hrest

end

/-! ## The result -/

/-- The content of the message's row. -/
def Reads (w : World) (id : Nat) (text : String) : Prop := ∃ r, w.rows id = some r ∧ w.content id r = some text

structure KeepsContent (w : World) : Prop where
  /-- A message that can still be sent reads back as it was recorded. -/
  live : ∀ id r, w.rows id = some r → r.state.final = false → ∃ input, w.recorded id = some input ∧ Reads w id input.content
  /-- No object is left that no cleanup finds. -/
  found : ∀ id text, w.objects id = some text → Named w id ∨ (w.uploads id).isSome
  /-- A key has one message, and its content is what that message was recorded with under the key. -/
  own : ∀ id r text, w.rows id = some r → w.content id r = some text → (∃ input, w.recorded id = some input ∧
    input.sender = r.sender ∧ input.idempotencyKey = r.idempotencyKey ∧ text = input.content) ∧
    ∀ id' r', w.rows id' = some r' → r'.sender = r.sender → r'.idempotencyKey = r.idempotencyKey → id' = id

theorem Kept.content_eq (h : Kept w) {id : Nat} (hr : w.rows id = some r) :
    w.content id r = if r.contentRef then w.objects id else none := by
  rw [World.content, h.content id r hr]

theorem Kept.reads (h : Kept w) {id : Nat} (hr : w.rows id = some r) (hnamed : r.contentRef = true)
    (hsome : (w.objects id).isSome) : ∃ input, w.recorded id = some input ∧ Reads w id input.content := by
  obtain ⟨text, htext⟩ := Option.isSome_iff_exists.mp hsome
  obtain ⟨input, hrecorded, rfl⟩ := h.text id text htext
  refine ⟨input, hrecorded, r, hr, ?_⟩
  rw [h.content_eq hr, if_pos hnamed, htext]

theorem Kept.keepsContent (h : Kept w) : KeepsContent w := by
  refine ⟨fun id r hr hlive => ?_, fun id text htext => ?_, fun id r text hr htext => ⟨?_, ?_⟩⟩
  · obtain ⟨hnamed, hsome⟩ := h.live id r hr hlive
    exact h.reads hr hnamed hsome
  · exact h.found id (by rw [htext]; rfl)
  · rw [h.content_eq hr] at htext
    split at htext
    · obtain ⟨input, hrecorded, rfl⟩ := h.text id text htext
      obtain ⟨input', hrecorded', hsender, hkey, _⟩ := h.filed.rows id r hr
      rw [hrecorded] at hrecorded'
      cases hrecorded'
      exact ⟨input, hrecorded, hsender.symm, hkey.symm, rfl⟩
    · cases htext
  · exact fun id' r' hr' hsender hkey => h.filed.unique id' id r' r hr' hr hsender hkey

theorem keptAll_append (a b : List Event) : keptAll deps w (a ++ b) = (keptAll deps w a && keptAll deps (w.after deps a) b) := by
  induction a generalizing w with
  | nil => rfl
  | cons event rest ih => simp only [List.cons_append, keptAll, ih, Bool.and_assoc, World.after, List.foldl_cons]

/-- In a run whose steps meet the condition, every state keeps the content of what can still be sent, and a requeue that
    answers true takes a message whose content can be read; being queued then, it stays readable until it is final again. -/
theorem sendable_messages_keep_their_content (deps : Deps) (hobjects : deps.objects = true) (events : List Event)
    (hkept : keptAll deps .start events = true) : KeepsContent (World.start.after deps events) ∧
    ∀ before id now later, events = before ++ .requeue id now :: later → ∀ r r',
    (World.start.after deps before).rows id = some r →
      requeue (requeueableMailStates deps.sender) now r = some r' →
      ∃ input, (World.start.after deps before).recorded id = some input ∧
      Reads (World.start.after deps before) id input.content := by
  refine ⟨(kept_after kept_start hobjects events hkept).keepsContent, ?_⟩
  rintro before id now later rfl r r' hr hstatement
  rw [keptAll_append, keptAll, Bool.and_eq_true, Bool.and_eq_true] at hkept
  have h := kept_after kept_start hobjects before hkept.1
  obtain ⟨hnamed, hsome⟩ := h.requeued hkept.2.1 hr hstatement
  exact h.reads hr hnamed hsome

/-- A message is accepted, fails and is sent again. -/
def aRequeuedRun : List Event :=
  [.accept "shop@live" "k" "f" "text" none 0, .goesOn 0 0, .goesOn 0 0, .goesOn 0 0, .goesOn 0 0,
    .dispatchMail 0 0, .goesOn 1 0, .readsContent 1 true, .handsOver 1 0 (.error .providerRejected), .goesOn 1 0, .requeue 0 1]

theorem a_requeued_message_keeps_its_content : KeepsContent (World.start.after ⟨true, some false⟩ aRequeuedRun) :=
  (sendable_messages_keep_their_content ⟨true, some false⟩ rfl aRequeuedRun (by decide)).1

/-- A person requeues the failed message between a purge's selection of it and the deletion of its object. -/
theorem a_requeued_message_loses_its_content : ¬∀ deps events, deps.objects = true →
    KeepsContent (World.start.after deps events) := by
  intro h
  let run : List Event :=
    [.accept "shop@live" "k" "f" "text" none 0, .goesOn 0 0, .goesOn 0 0, .goesOn 0 0, .goesOn 0 0,
      .dispatchMail 0 0, .goesOn 1 0, .readsContent 1 true, .handsOver 1 0 (.error .providerRejected), .goesOn 1 0,
      .purge (.one 0), .goesOn 2 0, .goesOn 2 0, .requeue 0 1, .goesOn 2 1]
  have hlost : (World.start.after ⟨true, some false⟩ run).objects 0 = none := by decide
  have hqueued : (World.start.after ⟨true, some false⟩ run).rows 0 =
      some ⟨"shop@live", "k", "f", .queued, 0, none, none, some "provider_rejected", none, true, 1⟩ := by decide
  obtain ⟨input, _, r, hr, hcontent⟩ := (h ⟨true, some false⟩ run rfl).live 0 _ hqueued rfl
  rw [hqueued] at hr
  cases hr
  rw [World.content, if_pos rfl, hlost] at hcontent
  cases hcontent

end Fabrika.Control.Mail
