/-
  Fabrika.Control.Mail — the mail relay's messages, their content objects and their dispatchers:
  control/src/db/mail-messages.ts and mail-relay/ (dispatch.ts, queue.ts, maintenance.ts and the
  recording half of handler.ts), with email/src/email.ts' failure codes.

  Each statement, each batch, each object operation and each send is one step. A caller that awaits
  between two of them is a job, which goes on at any later time or never (`crash` forgets it). A queue
  may lose, delay or repeat a dispatch, so one may come for any message at any time; enqueueing is then
  no step. Ids are fresh and in order. A message's one object is named by its id, so the id stands for
  the object's key and `contentRef` says whether the row names it.
-/

import Mathlib

namespace Fabrika.Control.Mail

/-! ## Delivery failures -/

inductive EmailDeliveryOutcome
  | notSent | unknown
  deriving DecidableEq

inductive EmailDeliveryErrorCode
  | invalidConfiguration | invalidMessage | mailNotConfigured | aborted | networkError | requestTimeout | requestInProgress
  | idempotencyConflict | providerUnauthorized | rateLimited | quotaExceeded | providerRejected | providerUnavailable
  | malformedResponse
  deriving DecidableEq

def EmailDeliveryErrorCode.text : EmailDeliveryErrorCode → String
  | .invalidConfiguration => "invalid_configuration"
  | .invalidMessage => "invalid_message"
  | .mailNotConfigured => "mail_not_configured"
  | .aborted => "aborted"
  | .networkError => "network_error"
  | .requestTimeout => "request_timeout"
  | .requestInProgress => "request_in_progress"
  | .idempotencyConflict => "idempotency_conflict"
  | .providerUnauthorized => "provider_unauthorized"
  | .rateLimited => "rate_limited"
  | .quotaExceeded => "quota_exceeded"
  | .providerRejected => "provider_rejected"
  | .providerUnavailable => "provider_unavailable"
  | .malformedResponse => "malformed_response"

/-- `EMAIL_DELIVERY_ERRORS`: retryable, and the outcome. -/
def EmailDeliveryErrorCode.classified : EmailDeliveryErrorCode → Bool × EmailDeliveryOutcome
  | .invalidConfiguration | .invalidMessage | .mailNotConfigured | .providerUnauthorized | .providerRejected => (false, .notSent)
  | .aborted | .networkError | .requestTimeout | .requestInProgress | .providerUnavailable | .malformedResponse =>
    (true, .unknown)
  | .idempotencyConflict => (false, .unknown)
  | .rateLimited | .quotaExceeded => (true, .notSent)

def mayRetryDelivery (code : EmailDeliveryErrorCode) (idempotent : Bool) : Bool :=
  code.classified.1 && (code.classified.2 = .notSent || idempotent)

/-- How a send ended; an error outside the classification is thrown on. -/
inductive Delivery
  | taken (messageId : String)
  | error (code : EmailDeliveryErrorCode)
  | throws
  deriving DecidableEq

/-! ## Rows -/

inductive MailMessageState
  | held | queued | sending | sent | failed | unknown | dropped
  deriving DecidableEq

def MailMessageState.final : MailMessageState → Bool
  | .sent | .failed | .unknown | .dropped => true
  | .held | .queued | .sending => false

structure MailMessageInput where
  sender : String
  idempotencyKey : String
  fingerprint : String
  state : MailMessageState
  content : String
  deriving DecidableEq

structure MailMessageRow where
  sender : String
  idempotencyKey : String
  fingerprint : String
  state : MailMessageState
  attempts : Nat
  nextAttemptAt : Option Nat
  providerMessageId : Option String
  errorCode : Option String
  content : Option String
  contentRef : Bool
  updatedAt : Nat
  deriving DecidableEq

def hasMailContent (row : MailMessageRow) : Bool := row.content.isSome || row.contentRef

def isInstallationSender (sender : String) : Bool := "installation:".toList.isPrefixOf sender.toList

inductive MailRuleAction
  | pass | hold | drop
  deriving DecidableEq

/-- The state a message is recorded in; `rule` is the most specific rule's action. -/
def gate (hasTransport : Bool) (sender : String) (rule : Option MailRuleAction) : MailMessageState :=
  if isInstallationSender sender then .queued
  else if !hasTransport then .held
  else match rule with
    | none => .queued
    | some .pass => .queued
    | some .hold => .held
    | some .drop => .dropped

/-! ## Statements on one row: the row they leave, or none where their `WHERE` misses it -/

def decide_ (state : MailMessageState) (now : Nat) (r : MailMessageRow) : Option MailMessageRow :=
  if r.state = .held then some { r with state, updatedAt := now } else none

def requeue (states : List MailMessageState) (now : Nat) (r : MailMessageRow) : Option MailMessageRow :=
  if hasMailContent r && states.contains r.state then
    some { r with state := .queued, attempts := 0, nextAttemptAt := none, updatedAt := now }
  else none

def claim (expectedAttempts now : Nat) (r : MailMessageRow) : Option MailMessageRow :=
  if r.state = .queued && r.attempts == expectedAttempts && r.nextAttemptAt.all (· ≤ now) then
    some { r with state := .sending, attempts := r.attempts + 1, updatedAt := now }
  else none

def reclaim (expectedAttempts : Nat) (claimedBefore : Int) (now : Nat) (r : MailMessageRow) : Option MailMessageRow :=
  if r.state = .sending && r.attempts == expectedAttempts && r.updatedAt ≤ claimedBefore then
    some { r with attempts := r.attempts + 1, updatedAt := now }
  else none

/-- What a consumer records of an attempt: `markSent`, `markUndelivered` or `defer`. -/
inductive Settled
  | sent (providerMessageId : String)
  | failed (errorCode : String)
  | unknown (errorCode : String)
  | deferred (nextAttemptAt : Nat) (errorCode : String)
  deriving DecidableEq

def Settled.state : Settled → MailMessageState
  | .sent _ => .sent
  | .failed _ => .failed
  | .unknown _ => .unknown
  | .deferred .. => .queued

def settle (settled : Settled) (attempt now : Nat) (r : MailMessageRow) : Option MailMessageRow :=
  if r.state = .sending && r.attempts == attempt then
    some <| match settled with
      | .sent providerMessageId =>
        { r with state :=
          .sent, providerMessageId := some providerMessageId, nextAttemptAt := none, errorCode := none, updatedAt := now }
      | .failed errorCode => { r with state := .failed, errorCode := some errorCode, nextAttemptAt := none, updatedAt := now }
      | .unknown errorCode => { r with state := .unknown, errorCode := some errorCode, nextAttemptAt := none, updatedAt := now }
      | .deferred nextAttemptAt errorCode =>
        { r with state := .queued, nextAttemptAt := some nextAttemptAt, errorCode := some errorCode, updatedAt := now }
  else none

def clearContent (r : MailMessageRow) : Option MailMessageRow :=
  if r.content.isSome && r.state.final then some { r with content := none } else none

def clearContentRef (r : MailMessageRow) : Option MailMessageRow :=
  if r.contentRef && r.state.final then some { r with contentRef := false } else none

/-! ## The relay -/

abbrev Table (α : Type) := Nat → Option α

/-- Whether Control has a store for content objects, and its transport: whether that is idempotent. -/
structure Deps where
  objects : Bool
  sender : Option Bool
  deriving DecidableEq

def MAIL_MAX_ATTEMPTS : Nat := 10
def MAIL_STALE_CLAIM_S : Nat := 600
def MAIL_DISPATCH_INTERRUPTED : String := "dispatch_interrupted"
def OBJECT_BATCH : Nat := 100

/-- Which final messages a purge takes. -/
inductive PurgeWhere
  | one (id : Nat)
  | unchangedSince (finalBefore : Nat)
  deriving DecidableEq

def PurgeWhere.takes : PurgeWhere → Nat → MailMessageRow → Bool
  | .one id, id', _ => id' = id
  | .unchangedSince finalBefore, _, r => r.updatedAt ≤ finalBefore

/-- A consumer's attempt: the row it read, the attempt's number, and the claim's place among the message's claims
    and requeues so far. -/
structure Attempt where
  id : Nat
  row : MailMessageRow
  attempt : Nat
  claim : Nat
  requeues : Nat
  deriving DecidableEq

/-- A caller between two steps, named by the step it takes next. -/
inductive Job
  | uploading (id : Nat) (input : MailMessageInput) (now : Nat)
  | putting (id : Nat) (input : MailMessageInput) (now : Nat)
  | inserting (id : Nat) (input : MailMessageInput) (now : Nat)
  | finding (id : Nat) (input : MailMessageInput)
  | discarding (id : Nat)
  | discarded (id : Nat)
  | claiming (id : Nat) (row : MailMessageRow) (now : Nat)
  /-- Behind the read of a stale claim. -/
  | stale (attempt : Attempt)
  | reading (attempt : Attempt)
  | sending (attempt : Attempt)
  | settling (attempt : Attempt) (settled : Settled)
  | clearing (takes : PurgeWhere)
  | selecting (takes : PurgeWhere)
  | deleting (id : Nat) (rest : List Nat)
  | unnaming (id : Nat) (rest : List Nat)
  | collecting (id : Nat) (rest : List Nat)
  /-- No row named the object. -/
  | unnamed (id : Nat) (rest : List Nat)
  | collected (id : Nat) (rest : List Nat)
  deriving DecidableEq

/-- An accepted answer: the request's sender and key, and the message it names. -/
structure Answer where
  sender : String
  idempotencyKey : String
  messageId : Nat
  deriving DecidableEq

/-- A message handed to the transport, with the state its row was in. -/
structure Handed where
  id : Nat
  state : Option MailMessageState
  delivery : Delivery
  deriving DecidableEq

/-- An outcome recorded on a row: the claim the row was under, and the one the writer made or found stale. -/
structure Outcome where
  id : Nat
  claim : Nat
  by_ : Nat
  deriving DecidableEq

structure World where
  rows : Table MailMessageRow
  uploads : Table Nat
  objects : Table String
  jobs : Table Job
  /-- Ids below are used. -/
  nextId : Nat
  /-- What each id was recorded with, whether a purge deleted its object, how often it was claimed and requeued, and
      what was done. -/
  recorded : Table MailMessageInput
  purged : Nat → Bool
  claims : Nat → Nat
  requeues : Nat → Nat
  answers : List Answer
  handed : List Handed
  outcomes : List Outcome

inductive Event
  | accept (sender idempotencyKey fingerprint content : String) (rule : Option MailRuleAction) (now : Nat)
  /-- A repeated broadcast, answered from its row without a recording. -/
  | replay (sender idempotencyKey fingerprint : String)
  | release (id now : Nat)
  | drop (id now : Nat)
  | requeue (id now : Nat)
  | dispatchMail (id now : Nat)
  | purge (takes : PurgeWhere)
  | collectUploads (recordedBefore : Nat)
  /-- The job takes its next step. -/
  | goesOn (job now : Nat)
  /-- The claimed message's content is read and parsed. -/
  | readsContent (job : Nat) (parses : Bool)
  | handsOver (job now : Nat) (delivery : Delivery)
  | crash (job : Nat)
  deriving DecidableEq

def World.start : World :=
  ⟨fun _ => none, fun _ => none, fun _ => none, fun _ => none, 0, fun _ => none, fun _ => false, fun _ => 0,
    fun _ => 0, [], [], []⟩

def World.find (w : World) (sender idempotencyKey : String) : Option Nat :=
  (List.range w.nextId).find? fun id => (w.rows id).any fun r => r.sender == sender && r.idempotencyKey == idempotencyKey

/-- An `UPDATE` of one row, or none where its `WHERE` misses. -/
def World.update (w : World) (id : Nat) (statement : MailMessageRow → Option MailMessageRow) : Option World :=
  ((w.rows id).bind statement).map fun r => { w with rows := Function.update w.rows id (some r) }

def World.updated (w : World) (id : Nat) (statement : MailMessageRow → Option MailMessageRow) : World :=
  (w.update id statement).getD w

def World.setJob (w : World) (j : Nat) (job : Option Job) : World := { w with jobs := Function.update w.jobs j job }

def World.starts (w : World) (job : Job) : World :=
  { w with jobs := Function.update w.jobs w.nextId (some job), nextId := w.nextId + 1 }

def World.claimed (w : World) (id : Nat) : World := { w with claims := Function.update w.claims id (w.claims id + 1) }

/-- `replayAnswer`: a conflict is no accepted answer. -/
def World.answer (w : World) (sender idempotencyKey fingerprint : String) (id : Nat) : World :=
  if (w.rows id).any (·.fingerprint == fingerprint) then { w with answers := w.answers ++ [⟨sender, idempotencyKey, id⟩] } else w

def requeueableMailStates (sender : Option Bool) : List MailMessageState :=
  if sender = some true then [.failed, .unknown] else [.failed]

def mailRetryDelaySeconds (attempts : Nat) : Nat := min (60 * 2 ^ (attempts - 1)) (30 * 24 * 60 * 60)

/-- `attempt` behind its send: what it records, if anything. -/
def settledBy (idempotent : Bool) (attempts now : Nat) : Delivery → Option Settled
  | .taken messageId => some (.sent messageId)
  | .throws => none
  | .error code =>
    if mayRetryDelivery code idempotent && attempts < MAIL_MAX_ATTEMPTS then
      some (.deferred (now + mailRetryDelaySeconds attempts) code.text)
    else if code.classified.2 = .notSent then some (.failed code.text)
    else some (.unknown code.text)

/-- The row as it is inserted. -/
def inserted (deps : Deps) (input : MailMessageInput) (now : Nat) : MailMessageRow :=
  { sender := input.sender, idempotencyKey := input.idempotencyKey, fingerprint := input.fingerprint, state := input.state,
    attempts := 0
    nextAttemptAt := none, providerMessageId := none, errorCode := none,
    content := if deps.objects then none else some input.content
    contentRef := deps.objects, updatedAt := now }

/-- `INSERT … ON CONFLICT (sender, idempotency_key) DO NOTHING`. -/
def World.insertMessage (w : World) (deps : Deps) (id : Nat) (input : MailMessageInput) (now : Nat) : World :=
  if (w.find input.sender input.idempotencyKey).isSome then w
  else { w with rows := Function.update w.rows id (some (inserted deps input now)) }

/-- The upload's record goes once the row names its object. -/
def World.dropUpload (w : World) (id : Nat) : World :=
  if (w.rows id).any (·.contentRef) then { w with uploads := Function.update w.uploads id none } else w

def World.records (w : World) (outcome : Outcome) : World := { w with outcomes := w.outcomes ++ [outcome] }

/-- The outcome is recorded against the claim; a final installation message's content is then forgotten. -/
def World.settles (w : World) (j : Nat) (a : Attempt) (settled : Settled) (now : Nat) : World :=
  match w.update a.id (settle settled a.attempt now) with
  | none => w.setJob j none
  | some w' =>
    let forgets := settled.state.final && isInstallationSender a.row.sender
    (w'.records ⟨a.id, w.claims a.id, a.claim⟩).setJob j (if forgets then some (.clearing (.one a.id)) else none)

def nextOf (job : Nat → List Nat → Job) : List Nat → Option Job
  | [] => none
  | id :: rest => some (job id rest)

/-- `dispatchMail` behind its read of the row. -/
def dispatches (deps : Deps) (w : World) (id : Nat) (row : MailMessageRow) (now : Nat) : Option Job :=
  if row.state = .queued then
    if row.nextAttemptAt.all (· ≤ now) && deps.sender.isSome then some (.claiming id row now) else none
  else if row.state = .sending && row.updatedAt + MAIL_STALE_CLAIM_S ≤ now then
    some (.stale ⟨id, row, row.attempts, w.claims id, w.requeues id⟩)
  else none

/-- The next step of job `j`. -/
def World.goesOn (deps : Deps) (w : World) (j now : Nat) : Job → World
  | .uploading id input at_ =>
    { w with uploads := Function.update w.uploads id (some at_) }.setJob j (some (.putting id input at_))
  | .putting id input at_ =>
    { w with objects := Function.update w.objects id (some input.content) }.setJob j (some (.inserting id input at_))
  | .inserting id input at_ => ((w.insertMessage deps id input at_).dropUpload id).setJob j (some (.finding id input))
  | .finding id input =>
    match w.find input.sender input.idempotencyKey with
    | none => w.setJob j none
    | some found =>
      (w.answer input.sender input.idempotencyKey input.fingerprint found).setJob j
        (if found ≠ id ∧ deps.objects then some (.discarding id) else none)
  | .discarding id => { w with objects := Function.update w.objects id none }.setJob j (some (.discarded id))
  | .discarded id => { w with uploads := Function.update w.uploads id none }.setJob j none
  | .claiming id row at_ =>
    match w.update id (claim row.attempts at_) with
    | none => w.setJob j none
    | some w' => (w'.claimed id).setJob j (some (.reading ⟨id, row, row.attempts + 1, w.claims id + 1, w.requeues id⟩))
  | .stale a =>
    if deps.sender = some true ∧ a.attempt < MAIL_MAX_ATTEMPTS then
      match w.update a.id (reclaim a.attempt ((now : Int) - MAIL_STALE_CLAIM_S) now) with
      | none => w.setJob j none
      | some w' => (w'.claimed a.id).setJob j (some (.reading ⟨a.id, a.row, a.attempt + 1, w.claims a.id + 1, w.requeues a.id⟩))
    else w.settles j a (.unknown MAIL_DISPATCH_INTERRUPTED) now
  | .settling a settled => w.settles j a settled now
  | .clearing takes =>
    { w with rows := fun id => (w.rows id).map fun r => if takes.takes id r then (clearContent r).getD r else r }.setJob j
      (if deps.objects then some (.selecting takes) else none)
  | .selecting takes =>
    let ids := (List.range w.nextId).filter fun id => (w.rows id).any fun r => r.contentRef && takes.takes id r && r.state.final
    w.setJob j (nextOf .deleting (ids.take OBJECT_BATCH))
  | .deleting id rest =>
    { w with objects := Function.update w.objects id none, purged := Function.update w.purged id true
      }.setJob j (some (.unnaming id rest))
  | .unnaming id rest => (w.updated id clearContentRef).setJob j (nextOf .deleting rest)
  | .collecting id rest => w.setJob j (some (if (w.rows id).any (·.contentRef) then .collected id rest else .unnamed id rest))
  | .unnamed id rest => { w with objects := Function.update w.objects id none }.setJob j (some (.collected id rest))
  | .collected id rest => { w with uploads := Function.update w.uploads id none }.setJob j (nextOf .collecting rest)
  | .reading _ => w
  | .sending _ => w

/-- `content`: the row's, as the consumer read it, or the object's. -/
def World.content (w : World) (id : Nat) (row : MailMessageRow) : Option String :=
  match row.content with
  | some content => some content
  | none => if row.contentRef then w.objects id else none

def World.hands (w : World) (handed : Handed) : World := { w with handed := w.handed ++ [handed] }

def World.step (deps : Deps) (w : World) : Event → World
  | .accept sender idempotencyKey fingerprint content rule now =>
    if isInstallationSender sender && deps.sender.isNone then w
    else
      let input : MailMessageInput := ⟨sender, idempotencyKey, fingerprint, gate deps.sender.isSome sender rule, content⟩
      let job := if deps.objects then Job.uploading w.nextId input now else Job.inserting w.nextId input now
      { w.starts job with recorded := Function.update w.recorded w.nextId (some input) }
  | .replay sender idempotencyKey fingerprint =>
    match w.find sender idempotencyKey with
    | none => w
    | some id => w.answer sender idempotencyKey fingerprint id
  | .release id now => w.updated id (decide_ .queued now)
  | .drop id now => w.updated id (decide_ .dropped now)
  | .requeue id now =>
    match w.update id (requeue (requeueableMailStates deps.sender) now) with
    | none => w
    | some w' => { w' with requeues := Function.update w.requeues id (w.requeues id + 1) }
  | .dispatchMail id now =>
    match (w.rows id).bind fun row => dispatches deps w id row now with
    | none => w
    | some job => w.starts job
  | .purge takes => w.starts (.clearing takes)
  | .collectUploads recordedBefore =>
    let due := (List.range w.nextId).filter fun id => (w.uploads id).any (· ≤ recordedBefore)
    let ids := (due.insertionSort fun a b => (w.uploads a).getD 0 ≤ (w.uploads b).getD 0).take OBJECT_BATCH
    match nextOf .collecting ids with
    | none => w
    | some job => w.starts job
  | .goesOn j now =>
    match w.jobs j with
    | none => w
    | some job => w.goesOn deps j now job
  | .readsContent j parses =>
    match w.jobs j with
    | some (.reading a) =>
      w.setJob j (some (if (w.content a.id a.row).isSome && parses then .sending a else .settling a (.failed "invalid_message")))
    | _ => w
  | .handsOver j now delivery =>
    match w.jobs j with
    | some (.sending a) =>
      (w.hands ⟨a.id, (w.rows a.id).map (·.state), delivery⟩).setJob j
        ((settledBy (deps.sender = some true) a.attempt now delivery).map (.settling a))
    | _ => w
  | .crash j => w.setJob j none

def World.after (deps : Deps) (w : World) (events : List Event) : World := events.foldl (World.step deps) w

end Fabrika.Control.Mail
