/-
  Fabrika.Platform.JobQueueProofs — what the queue delivers, and when (see `Fabrika.Platform.JobQueue`).

  In every run a row goes only behind a handler call that returned or a failed delivery without further
  attempts (`Kept`). The rest holds while no delivery outlives its claim's window and none that was the
  last allowed one is lost with its consumer (`Meets`): then a job in some pass's hand has a row under
  exactly that delivery's number, in one hand only (`Held`), so a claim takes no job anyone still has,
  and a row with no attempts left is in somebody's hand until it is dropped.
-/

import Fabrika.Platform.JobQueue

namespace Fabrika.Platform.JobQueue

variable {T : Type} {options : Nat → Options T} {w : World T} {event : Event}

/-! ## Statements -/

theorem row_eq_of_id {rows : List Row} (h : (rows.map Row.id).Nodup) {a b : Row} (ha : a ∈ rows) (hb : b ∈ rows)
    (heq : a.id = b.id) : a = b :=
  List.inj_on_of_nodup_map h ha hb heq

theorem mem_selected {rows : List Row} {queue : String} {now : Int} {limit : Nat} {locked : List Nat} {id : Nat}
    (h : id ∈ selected rows queue now limit locked) : ∃ row ∈ rows, row.id = id ∧ row.due queue now = true := by
  obtain ⟨row, hrow, rfl⟩ := List.mem_map.mp h
  have hfilter := (List.mem_insertionSort _).mp (List.mem_of_mem_take hrow)
  obtain ⟨hmem, hdue⟩ := List.mem_filter.mp hfilter
  simp only [Bool.and_eq_true] at hdue
  exact ⟨row, hmem, rfl, hdue.1⟩

section Claim

variable {rows : List Row} {visibleAt now : Int} {queue : String} {limit : Nat} {locked : List Nat}

/-- A claim writes each row it takes and leaves the others. -/
theorem mem_claim {row : Row} (h : row ∈ (claim rows visibleAt queue now limit locked).1) :
    ∃ old ∈ rows, (old.id ∈ selected rows queue now limit locked ∧ row = old.claimed visibleAt) ∨
      (old.id ∉ selected rows queue now limit locked ∧ row = old) := by
  obtain ⟨old, hold, rfl⟩ := List.mem_map.mp h
  refine ⟨old, hold, ?_⟩
  by_cases hid : old.id ∈ selected rows queue now limit locked
  · exact .inl ⟨hid, if_pos hid⟩
  · exact .inr ⟨hid, if_neg hid⟩

theorem claim_left {old : Row} (hold : old ∈ rows) (hid : old.id ∉ selected rows queue now limit locked) :
    old ∈ (claim rows visibleAt queue now limit locked).1 :=
  List.mem_map.mpr ⟨old, hold, if_neg hid⟩

theorem claim_taken {old : Row} (hold : old ∈ rows) (hid : old.id ∈ selected rows queue now limit locked) :
    old.claimed visibleAt ∈ (claim rows visibleAt queue now limit locked).1 :=
  List.mem_map.mpr ⟨old, hold, if_pos hid⟩

theorem mem_returned {row : Row} : row ∈ (claim rows visibleAt queue now limit locked).2 ↔
    ∃ old ∈ rows, old.id ∈ selected rows queue now limit locked ∧ row = old.claimed visibleAt := by
  simp only [claim, List.mem_map, List.mem_filter, decide_eq_true_eq]
  constructor
  · rintro ⟨old, ⟨hold, hid⟩, rfl⟩
    exact ⟨old, hold, hid, rfl⟩
  · rintro ⟨old, hold, hid, rfl⟩
    exact ⟨old, ⟨hold, hid⟩, rfl⟩

theorem claim_ids : (claim rows visibleAt queue now limit locked).1.map Row.id = rows.map Row.id := by
  simp only [claim, List.map_map]
  refine List.map_congr_left fun row _ => ?_
  simp only [Function.comp_apply]
  split
  · rfl
  · rfl

theorem returned_ids (h : (rows.map Row.id).Nodup) :
    ((claim rows visibleAt queue now limit locked).2.map Row.id).Nodup := by
  have heq : (claim rows visibleAt queue now limit locked).2.map Row.id =
      (rows.filter fun row => row.id ∈ selected rows queue now limit locked).map Row.id := by
    simp only [claim, List.map_map]
    rfl
  rw [heq]
  exact h.sublist (List.filter_sublist.map _)

end Claim

variable {row : Row} {raw : Job String} {k : Consumer T} {c : Nat}

theorem mem_ack {rows : List Row} {id : Nat} : row ∈ ack rows id ↔ row ∈ rows ∧ row.id ≠ id := by
  simp [ack]

theorem mem_defer {rows : List Row} {id : Nat} {visibleAt : Int} (h : row ∈ defer rows id visibleAt) :
    ∃ old ∈ rows, row.id = old.id ∧ row.attempts = old.attempts ∧ row.maxAttempts = old.maxAttempts := by
  obtain ⟨old, hold, rfl⟩ := List.mem_map.mp h
  refine ⟨old, hold, ?_⟩
  split
  · exact ⟨rfl, rfl, rfl⟩
  · exact ⟨rfl, rfl, rfl⟩

theorem defer_keeps {rows : List Row} {old : Row} (h : old ∈ rows) (id : Nat) (visibleAt : Int) :
    ∃ row ∈ defer rows id visibleAt, row.id = old.id ∧ row.attempts = old.attempts ∧ row.maxAttempts = old.maxAttempts := by
  refine ⟨_, List.mem_map.mpr ⟨old, h, rfl⟩, ?_⟩
  split
  · exact ⟨rfl, rfl, rfl⟩
  · exact ⟨rfl, rfl, rfl⟩

theorem defer_ids (rows : List Row) (id : Nat) (visibleAt : Int) : (defer rows id visibleAt).map Row.id = rows.map Row.id := by
  simp only [defer, List.map_map]
  refine List.map_congr_left fun row _ => ?_
  simp only [Function.comp_apply]
  split
  · rfl
  · rfl

/-- A settlement leaves the rows of every other job. -/
theorem settlement_row {rows : List Row} {settlement : Settlement} {id : Nat} (h : row ∈ settlement.apply rows id) :
    ∃ old ∈ rows, row.id = old.id ∧ row.attempts = old.attempts ∧ row.maxAttempts = old.maxAttempts := by
  cases settlement with
  | ack => exact ⟨row, ((mem_ack).mp h).1, rfl, rfl, rfl⟩
  | defer visibleAt => exact mem_defer h

theorem settlement_other {rows : List Row} (settlement : Settlement) {id : Nat} {old : Row} (hold : old ∈ rows)
    (hne : old.id ≠ id) :
    ∃ row ∈ settlement.apply rows id, row.id = old.id ∧ row.attempts = old.attempts ∧ row.maxAttempts = old.maxAttempts := by
  cases settlement with
  | ack => exact ⟨old, (mem_ack).mpr ⟨hold, hne⟩, rfl, rfl, rfl⟩
  | defer visibleAt => exact defer_keeps hold id visibleAt

theorem settlement_ids {rows : List Row} (h : (rows.map Row.id).Nodup) (settlement : Settlement) (id : Nat) :
    ((settlement.apply rows id).map Row.id).Nodup := by
  cases settlement with
  | ack => exact h.sublist (List.filter_sublist.map _)
  | defer visibleAt =>
    simp only [Settlement.apply, defer_ids]
    exact h

/-! ## What a step does -/

theorem failed_ack {options : Options T} {now : Int} (h : failed options now raw = .ack) : raw.maxAttempts ≤ raw.attempts := by
  by_contra hlt
  simp [failed, hlt] at h

theorem failed_defer {options : Options T} {now visibleAt : Int} (h : failed options now raw = .defer visibleAt) :
    raw.attempts < raw.maxAttempts := by
  by_contra hge
  simp [failed, Nat.not_lt.mp hge] at h

inductive Moves (options : Nat → Options T) (w : World T) : Event → World T → Prop
  | same {event : Event} : Moves options w event w
  | ticked {ms : Nat} : Moves options w (.tick ms) { w with now := w.now + ms }
  | sent {row : Row} {delaySeconds : Int} : w.sent row.id = none → row.attempts = 0 →
      Moves options w (.send row.id row.queue row.payload delaySeconds row.maxAttempts)
        { w with rows := w.rows ++ [row], sent := Function.update w.sent row.id (some row.maxAttempts) }
  | claimed {c : Nat} {locked : List Nat} : (w.consumers c).inHand = [] →
      Moves options w (.poll c locked) (w.claimRaw (options c) c locked)
  | handed {c : Nat} {raw : Job String} {rest : List (Job String)} {job : Job T} : w.consumers c = ⟨none, raw :: rest⟩ →
      Moves options w (.begins c) ({ w with handed := Function.update w.handed raw.id (w.handed raw.id + 1) }.setConsumer c
        ⟨some (raw, .handling job w.now), rest⟩)
  | unread {c : Nat} {raw : Job String} {rest : List (Job String)} : w.consumers c = ⟨none, raw :: rest⟩ →
      Moves options w (.begins c) (({ w with handed := Function.update w.handed raw.id (w.handed raw.id + 1) }.fails
        raw).setConsumer c ⟨some (raw, .settling (failed (options c) w.now raw)), rest⟩)
  | returned {c : Nat} {raw : Job String} {job : Job T} {startedAt : Int} {rest : List (Job String)} :
      w.consumers c = ⟨some (raw, .handling job startedAt), rest⟩ →
      Moves options w (.returns c) ({ w with returned := Function.update w.returned raw.id true }.setConsumer c
        ⟨some (raw, .settling .ack), rest⟩)
  | threw {c : Nat} {raw : Job String} {job : Job T} {startedAt : Int} {rest : List (Job String)} :
      w.consumers c = ⟨some (raw, .handling job startedAt), rest⟩ →
      Moves options w (.throws c) ((w.fails raw).setConsumer c ⟨some (raw, .settling (failed (options c) w.now raw)), rest⟩)
  | settled {c : Nat} {raw : Job String} {settlement : Settlement} {rest : List (Job String)} :
      w.consumers c = ⟨some (raw, .settling settlement), rest⟩ →
      Moves options w (.settles c) ({ w with
        rows := settlement.apply w.rows raw.id
        settlements := w.settlements ++ settledOn w.rows raw }.setConsumer c ⟨none, rest⟩)
  | unsettled {c : Nat} {raw : Job String} {settlement : Settlement} {rest : List (Job String)} :
      w.consumers c = ⟨some (raw, .settling settlement), rest⟩ →
      Moves options w (.settlementFails c) (w.setConsumer c ⟨none, rest⟩)
  | died {c : Nat} : Moves options w (.dies c) (w.setConsumer c .idle)

theorem step_moves (options : Nat → Options T) (w : World T) (event : Event) : Moves options w event (w.step options event) := by
  cases event with
  | tick ms => exact .ticked
  | send id queue payload delaySeconds maxAttempts =>
    cases hsent : w.sent id with
    | none =>
      simp only [World.step, World.send, hsent, Option.isSome_none, Bool.false_eq_true, if_false]
      exact @Moves.sent T options w ⟨id, queue, payload, w.now + max 0 delaySeconds * 1000, 0, maxAttempts,
        w.now⟩ delaySeconds hsent rfl
    | some m =>
      have hsame : w.step options (.send id queue payload delaySeconds maxAttempts) = w := by
        simp [World.step, World.send, hsent]
      rw [hsame]
      exact .same
  | poll c locked =>
    by_cases hidle : (w.consumers c).inHand = []
    · exact .claimed hidle
    · have hsame : w.step options (.poll c locked) = w := by
        simp [World.step, World.claimRaw, hidle]
      rw [hsame]
      exact .same
  | begins c =>
    simp only [World.step, World.begins]
    split
    · next raw rest hcurrent hrest =>
      have hk : w.consumers c = ⟨none, raw :: rest⟩ := by
        rw [← hcurrent, ← hrest]
      split
      · exact .handed hk
      · exact .unread hk
    · exact .same
  | returns c =>
    simp only [World.step, World.returns]
    split
    · next raw job startedAt hcurrent => exact .returned (by rw [← hcurrent])
    · exact .same
  | throws c =>
    simp only [World.step, World.throws]
    split
    · next raw job startedAt hcurrent => exact .threw (by rw [← hcurrent])
    · exact .same
  | settles c =>
    simp only [World.step, World.settles]
    split
    · next raw settlement hcurrent => exact .settled (by rw [← hcurrent])
    · exact .same
  | settlementFails c =>
    simp only [World.step, World.settlementFails]
    split
    · next raw settlement hcurrent => exact .unsettled (by rw [← hcurrent])
    · exact .same
  | dies c => exact .died

/-! ## What holds in every run -/

/-- The table's ids, what every row was sent with, and why a row may go. -/
structure Kept (w : World T) : Prop where
  ids : (w.rows.map Row.id).Nodup
  rows : ∀ row ∈ w.rows, w.sent row.id = some row.maxAttempts
  gone : ∀ id m, w.sent id = some m → (∃ row ∈ w.rows, row.id = id) ∨ w.returned id = true ∨ w.spent id = true
  acked : ∀ c raw, (w.consumers c).current = some (raw, .settling .ack) → w.returned raw.id = true ∨ w.spent raw.id = true

theorem kept_start (now : Int) : Kept (World.start now : World T) :=
  ⟨List.nodup_nil, (fun _ h => nomatch h), (fun _ _ h => nomatch h), (fun _ _ h => nomatch h)⟩

section
variable (w : World T) (raw : Job String)

@[simp] theorem fails_rows : (w.fails raw).rows = w.rows := by
  unfold World.fails; split <;> rfl

@[simp] theorem fails_consumers : (w.fails raw).consumers = w.consumers := by
  unfold World.fails; split <;> rfl

@[simp] theorem fails_sent : (w.fails raw).sent = w.sent := by
  unfold World.fails; split <;> rfl

@[simp] theorem fails_handed : (w.fails raw).handed = w.handed := by
  unfold World.fails; split <;> rfl

@[simp] theorem fails_returned : (w.fails raw).returned = w.returned := by
  unfold World.fails; split <;> rfl

@[simp] theorem fails_settlements : (w.fails raw).settlements = w.settlements := by
  unfold World.fails; split <;> rfl

theorem fails_spent (id : Nat) (h : w.spent id = true) : (w.fails raw).spent id = true := by
  unfold World.fails
  split
  · by_cases hid : id = raw.id
    · simp [hid]
    · simpa [hid] using h
  · exact h

end

theorem fails_last (h : raw.maxAttempts ≤ raw.attempts) : (w.fails raw).spent raw.id = true := by
  simp [World.fails, h]

/-- The rows and what was recorded of them stay, and so does every reason to ack; the consumer's own is given. -/
theorem Kept.setConsumer (h : Kept w) (w' : World T) (hrows : w'.rows = w.rows) (hsent : w'.sent = w.sent)
    (hconsumers : w'.consumers = w.consumers) (hreturned : ∀ id, w.returned id = true → w'.returned id = true)
    (hspent : ∀ id, w.spent id = true → w'.spent id = true) (c : Nat)
    (hack : ∀ raw, k.current = some (raw, .settling .ack) → w'.returned raw.id = true ∨ w'.spent raw.id = true) :
    Kept (w'.setConsumer c k) where
  ids := by
    show (w'.rows.map Row.id).Nodup
    exact hrows ▸ h.ids
  rows row hrow := by
    show w'.sent row.id = some row.maxAttempts
    rw [hsent]
    exact h.rows row (hrows ▸ hrow)
  gone id m hid := by
    show (∃ row ∈ w'.rows, row.id = id) ∨ w'.returned id = true ∨ w'.spent id = true
    rw [hrows]
    rcases h.gone id m (hsent ▸ hid) with hrow | hreturn | hspend
    · exact .inl hrow
    · exact .inr (.inl (hreturned id hreturn))
    · exact .inr (.inr (hspent id hspend))
  acked c' raw hcurrent := by
    show w'.returned raw.id = true ∨ w'.spent raw.id = true
    by_cases hc : c' = c
    · subst hc
      exact hack raw (by simpa [World.setConsumer] using hcurrent)
    · have hold : (w.consumers c').current = some (raw, .settling .ack) := by
        simpa [World.setConsumer, hc, hconsumers] using hcurrent
      rcases h.acked c' raw hold with hreturn | hspend
      · exact .inl (hreturned _ hreturn)
      · exact .inr (hspent _ hspend)

theorem kept_step (h : Kept w) : Kept (w.step options event) := by
  have hmoves := step_moves options w event
  generalize w.step options event = w' at hmoves
  cases hmoves with
  | same => exact h
  | ticked => exact ⟨h.ids, h.rows, h.gone, h.acked⟩
  | @sent new delaySeconds hfresh _ =>
    have hnew : ∀ row ∈ w.rows, row.id ≠ new.id := by
      intro row hrow heq
      have := h.rows row hrow
      rw [heq, hfresh] at this
      cases this
    refine ⟨?_, ?_, ?_, h.acked⟩
    · simp only [List.map_append, List.map_cons, List.map_nil]
      refine List.nodup_append.mpr ⟨h.ids, List.nodup_singleton _, ?_⟩
      intro a ha b hb hab
      obtain ⟨row, hrow, rfl⟩ := List.mem_map.mp ha
      exact hnew row hrow (hab.trans (List.mem_singleton.mp hb))
    · intro row hrow
      rcases List.mem_append.mp hrow with hrow | hrow
      · show Function.update w.sent new.id _ row.id = _
        rw [Function.update_of_ne (hnew row hrow)]
        exact h.rows row hrow
      · obtain rfl := List.mem_singleton.mp hrow
        simp
    · intro id m hid
      by_cases heq : id = new.id
      · exact .inl ⟨new, List.mem_append_right _ (List.mem_singleton.mpr rfl), heq.symm⟩
      · dsimp only at hid
        rw [Function.update_of_ne heq] at hid
        rcases h.gone id m hid with ⟨row, hrow, hrowid⟩ | hgone
        · exact .inl ⟨row, List.mem_append_left _ hrow, hrowid⟩
        · exact .inr hgone
  | @claimed c locked hidle =>
    simp only [World.claimRaw, hidle, if_true]
    refine ⟨?_, ?_, ?_, ?_⟩
    · simp only [World.setConsumer, claim_ids]
      exact h.ids
    · intro row hrow
      obtain ⟨old, hold, ⟨_, rfl⟩ | ⟨_, rfl⟩⟩ := mem_claim hrow
      · exact h.rows old hold
      · exact h.rows row hold
    · intro id m hid
      rcases h.gone id m hid with ⟨row, hrow, hrowid⟩ | hgone
      · refine .inl ?_
        by_cases hsel : row.id ∈ selected w.rows (options c).queue w.now (options c).batchSize locked
        · exact ⟨_, claim_taken hrow hsel, hrowid⟩
        · exact ⟨_, claim_left hrow hsel, hrowid⟩
      · exact .inr hgone
    · intro c' raw hcurrent
      by_cases hc : c' = c
      · simp [World.setConsumer, hc] at hcurrent
      · exact h.acked c' raw (by simpa [World.setConsumer, hc] using hcurrent)
  | @handed c raw rest job hk =>
    exact h.setConsumer { w with handed := Function.update w.handed raw.id (w.handed raw.id + 1) } rfl rfl rfl
      (fun _ hid => hid) (fun _ hid => hid) c (fun _ hack => nomatch hack)
  | @unread c raw rest hk =>
    refine h.setConsumer ({ w with handed := Function.update w.handed raw.id (w.handed raw.id + 1) }.fails
      raw) (by simp) (by simp) (by simp) (fun id hid => by rw [fails_returned]; exact hid) (fun id hid => ?_) c (fun raw' hack =>
      .inr ?_)
    · exact fails_spent _ _ _ hid
    · simp only [Option.some.injEq, Prod.mk.injEq, Phase.settling.injEq] at hack
      obtain ⟨rfl, hfailed⟩ := hack
      exact fails_last (failed_ack hfailed)
  | @returned c raw job startedAt rest hk =>
    refine h.setConsumer { w with returned := Function.update w.returned raw.id true
      } rfl rfl rfl (fun id hid => ?_) (fun _ hid => hid) c (fun raw' hack => .inl ?_)
    · by_cases heq : id = raw.id
      · simp [heq]
      · simpa [heq] using hid
    · simp only [Option.some.injEq, Prod.mk.injEq] at hack
      obtain ⟨rfl, -⟩ := hack
      simp
  | @threw c raw job startedAt rest hk =>
    refine h.setConsumer (w.fails raw) (by simp) (by simp) (by simp) (fun id hid =>
      by rw [fails_returned]; exact hid) (fun id hid => ?_) c (fun raw' hack => .inr ?_)
    · exact fails_spent _ _ _ hid
    · simp only [Option.some.injEq, Prod.mk.injEq, Phase.settling.injEq] at hack
      obtain ⟨rfl, hfailed⟩ := hack
      exact fails_last (failed_ack hfailed)
  | @settled c raw settlement rest hk =>
    refine ⟨settlement_ids h.ids settlement raw.id, ?_, ?_, ?_⟩
    · intro row hrow
      obtain ⟨old, hold, hid, -, hmax⟩ := settlement_row hrow
      rw [hid, hmax]
      exact h.rows old hold
    · intro id m hid
      rcases h.gone id m hid with ⟨row, hrow, hrowid⟩ | hgone
      · cases settlement with
        | ack =>
          by_cases heq : row.id = raw.id
          · rw [← hrowid, heq]
            exact .inr (h.acked c raw (by rw [hk]))
          · exact .inl ⟨row, (mem_ack).mpr ⟨hrow, heq⟩, hrowid⟩
        | defer visibleAt =>
          obtain ⟨row', hrow', hid', -, -⟩ := defer_keeps hrow raw.id visibleAt
          exact .inl ⟨row', hrow', hid'.trans hrowid⟩
      · exact .inr hgone
    · intro c' raw' hcurrent
      by_cases hc : c' = c
      · simp [World.setConsumer, hc] at hcurrent
      · exact h.acked c' raw' (by simpa [World.setConsumer, hc] using hcurrent)
  | unsettled hk => exact h.setConsumer _ rfl rfl rfl (fun _ hid => hid) (fun _ hid => hid) _ (fun _ hack => nomatch hack)
  | died => exact h.setConsumer _ rfl rfl rfl (fun _ hid => hid) (fun _ hid => hid) _ (fun _ hack => nomatch hack)

/-! ## While every delivery ends within its window -/

/-- What a step must find: a job is sent with some attempts; a poll finds no due row that a consumer still has in
    hand; no consumer is lost, and no settlement fails, with the last allowed delivery of a job in hand. -/
def Meets (options : Nat → Options T) (w : World T) : Event → Prop
  | .send _ _ _ _ maxAttempts => 0 < maxAttempts
  | .poll c _ => ∀ c' raw, raw ∈ (w.consumers c').inHand → ∀ row ∈ w.rows, row.id = raw.id →
      row.due (options c).queue w.now = false
  | .settlementFails c => ∀ raw settlement, (w.consumers c).current = some (raw, .settling settlement) →
      raw.attempts < raw.maxAttempts
  | .dies c => ∀ raw ∈ (w.consumers c).inHand, raw.attempts < raw.maxAttempts
  | _ => True

def MeetsAll (options : Nat → Options T) (w : World T) : List Event → Prop
  | [] => True
  | event :: rest => Meets options w event ∧ MeetsAll options (w.step options event) rest

/-- A delivery in hand is its row's last claim and in one hand only, is not yet counted as handed while it waits, and a
    row without attempts left is in hand. -/
structure Held (w : World T) : Prop where
  row : ∀ c, ∀ raw ∈ (w.consumers c).inHand,
    ∃ row ∈ w.rows, row.id = raw.id ∧ row.attempts = raw.attempts ∧ row.maxAttempts = raw.maxAttempts
  apart : ∀ c, ((w.consumers c).inHand.map Job.id).Nodup
  one : ∀ c c' raw raw', raw ∈ (w.consumers c).inHand → raw' ∈ (w.consumers c').inHand → raw.id = raw'.id → c = c'
  deferring : ∀ c raw visibleAt, (w.consumers c).current = some (raw, .settling (.defer visibleAt)) →
    raw.attempts < raw.maxAttempts
  waiting : ∀ c, ∀ raw ∈ (w.consumers c).rest, w.handed raw.id < raw.attempts
  counted : ∀ row ∈ w.rows, w.handed row.id ≤ row.attempts
  within : ∀ row ∈ w.rows, row.attempts ≤ row.maxAttempts
  last : ∀ row ∈ w.rows, row.maxAttempts ≤ row.attempts → ∃ c, ∃ raw ∈ (w.consumers c).inHand, raw.id = row.id
  budget : ∀ id m, w.sent id = some m → w.handed id ≤ m
  unsent : ∀ id, w.sent id = none → w.handed id = 0
  settled : ∀ settled ∈ w.settlements, settled.delivery = settled.claim

theorem held_start (now : Int) : Held (World.start now : World T) where
  row _ _ h := nomatch h
  apart _ := List.nodup_nil
  one _ _ _ _ h := nomatch h
  deferring _ _ _ h := nomatch h
  waiting _ _ h := nomatch h
  counted _ h := nomatch h
  within _ h := nomatch h
  last _ h := nomatch h
  budget _ _ h := nomatch h
  unsent _ _ := rfl
  settled _ h := nomatch h

theorem mem_inHand : raw ∈ k.inHand ↔ (∃ phase, k.current = some (raw, phase)) ∨ raw ∈ k.rest := by
  cases hk : k.current with
  | none => simp [Consumer.inHand, hk]
  | some current =>
    simp only [Consumer.inHand, hk, Option.map_some, Option.toList_some, List.cons_append, List.nil_append, List.mem_cons,
      Option.some.injEq]
    constructor
    · rintro (rfl | hrest)
      · exact .inl ⟨current.2, rfl⟩
      · exact .inr hrest
    · rintro (⟨phase, rfl⟩ | hrest)
      · exact .inl rfl
      · exact .inr hrest

theorem setConsumer_cases {c' : Nat} {P : Consumer T → Prop} (hnew : P k) (hold : P (w.consumers c')) :
    P ((w.setConsumer c k).consumers c') := by
  by_cases hc : c' = c
  · subst hc
    simpa [World.setConsumer] using hnew
  · simpa [World.setConsumer, hc] using hold

/-- A consumer changes its phase, or lets go of deliveries that were not their job's last. -/
theorem Held.setConsumer (h : Held w) (hkept : Kept w) (w' : World T) (hrows : w'.rows = w.rows) (hsent : w'.sent = w.sent)
    (hconsumers : w'.consumers = w.consumers) (hhanded : w'.handed = w.handed) (hsettled : w'.settlements = w.settlements)
    (c : Nat) (hsub : k.inHand.Sublist (w.consumers c).inHand) (hrest : ∀ raw ∈ k.rest, raw ∈ (w.consumers c).rest)
    (hdefer : ∀ raw visibleAt, k.current = some (raw, .settling (.defer visibleAt)) → raw.attempts < raw.maxAttempts)
    (hlast : ∀ raw ∈ (w.consumers c).inHand, raw.maxAttempts ≤ raw.attempts → raw ∈ k.inHand) : Held (w'.setConsumer c k) := by
  have hmem : ∀ c' raw, raw ∈ ((w'.setConsumer c k).consumers c').inHand → raw ∈ (w.consumers c').inHand := by
    intro c' raw hraw
    by_cases hc : c' = c
    · subst hc
      exact hsub.subset (by simpa [World.setConsumer] using hraw)
    · simpa [World.setConsumer, hc, hconsumers] using hraw
  refine ⟨?_, ?_, ?_, ?_, ?_, ?_, ?_, ?_, ?_, ?_, ?_⟩
  · intro c' raw hraw
    show ∃ row ∈ w'.rows, _
    rw [hrows]
    exact h.row c' raw (hmem c' raw hraw)
  · intro c'
    refine setConsumer_cases (P := fun k => (k.inHand.map Job.id).Nodup) ?_ ?_
    · exact (h.apart c).sublist (hsub.map _)
    · rw [hconsumers]
      exact h.apart c'
  · exact fun c₁ c₂ raw raw' h₁ h₂ => h.one c₁ c₂ raw raw' (hmem c₁ raw h₁) (hmem c₂ raw' h₂)
  · intro c' raw visibleAt
    refine setConsumer_cases (P := fun k => k.current = some (raw, .settling (.defer visibleAt)) → _) ?_ ?_
    · exact hdefer raw visibleAt
    · rw [hconsumers]
      exact h.deferring c' raw visibleAt
  · intro c' raw hraw
    show w'.handed raw.id < raw.attempts
    rw [hhanded]
    by_cases hc : c' = c
    · subst hc
      exact h.waiting c' raw (hrest raw (by simpa [World.setConsumer] using hraw))
    · exact h.waiting c' raw (by simpa [World.setConsumer, hc, hconsumers] using hraw)
  · intro row hrow
    show w'.handed row.id ≤ row.attempts
    rw [hhanded]
    exact h.counted row (hrows ▸ hrow)
  · exact fun row hrow => h.within row (hrows ▸ hrow)
  · intro row hrow hspent
    obtain ⟨c', raw, hraw, hid⟩ := h.last row (hrows ▸ hrow) hspent
    by_cases hc : c' = c
    · subst hc
      obtain ⟨row', hrow', hid', hattempts, hmax⟩ := h.row c' raw hraw
      obtain rfl := row_eq_of_id hkept.ids hrow' (hrows ▸ hrow) (hid'.trans hid)
      refine ⟨c', raw, ?_, hid⟩
      simp only [World.setConsumer, Function.update_self]
      exact hlast raw hraw (by omega)
    · exact ⟨c', raw, by simpa [World.setConsumer, hc, hconsumers] using hraw, hid⟩
  · intro id m hid
    show w'.handed id ≤ m
    rw [hhanded]
    exact h.budget id m (hsent ▸ hid)
  · intro id hid
    show w'.handed id = 0
    rw [hhanded]
    exact h.unsent id (hsent ▸ hid)
  · exact fun settled hmem => h.settled settled (hsettled ▸ hmem)

theorem held_sent (h : Held w) {new : Row} (hfresh : w.sent new.id = none) (hattempts : new.attempts = 0)
    (hsome : 0 < new.maxAttempts) :
    Held { w with rows := w.rows ++ [new], sent := Function.update w.sent new.id (some new.maxAttempts) } := by
  have hunhanded : w.handed new.id = 0 := h.unsent new.id hfresh
  refine { h with row := ?_, counted := ?_, within := ?_, last := ?_, budget := ?_, unsent := ?_ }
  · intro c raw hraw
    obtain ⟨row, hrow, hsame⟩ := h.row c raw hraw
    exact ⟨row, List.mem_append_left _ hrow, hsame⟩
  · intro row hrow
    rcases List.mem_append.mp hrow with hrow | hrow
    · exact h.counted row hrow
    · obtain rfl := List.mem_singleton.mp hrow
      show w.handed row.id ≤ row.attempts
      omega
  · intro row hrow
    rcases List.mem_append.mp hrow with hrow | hrow
    · exact h.within row hrow
    · obtain rfl := List.mem_singleton.mp hrow
      omega
  · intro row hrow hspent
    rcases List.mem_append.mp hrow with hrow | hrow
    · exact h.last row hrow hspent
    · obtain rfl := List.mem_singleton.mp hrow
      omega
  · intro id m hid
    show w.handed id ≤ m
    by_cases heq : id = new.id
    · rw [heq, hunhanded]
      exact Nat.zero_le _
    · exact h.budget id m (by simpa [heq] using hid)
  · intro id hid
    by_cases heq : id = new.id
    · simp [heq] at hid
    · exact h.unsent id (by simpa [heq] using hid)

/-- A claim takes rows that nobody has in hand: each of them has an attempt left. -/
theorem held_claimed (h : Held w) (hkept : Kept w) {locked : List Nat} (hidle : (w.consumers c).inHand = [])
    (hmeets : Meets options w (.poll c locked)) : Held (w.claimRaw (options c) c locked) := by
  simp only [World.claimRaw, hidle, if_true]
  generalize hids : selected w.rows (options c).queue w.now (options c).batchSize locked = ids
  generalize hv : w.now + (options c).visibilityTimeoutMs = visibleAt
  generalize hclaim : claim w.rows visibleAt (options c).queue w.now (options c).batchSize locked = claimed
  have hfree : ∀ row ∈ w.rows, row.id ∈ ids → ∀ c' raw, raw ∈ (w.consumers c').inHand → raw.id ≠ row.id := by
    intro row hrow hid c' raw hraw heq
    obtain ⟨due, hdue, hdueId, hisDue⟩ := mem_selected (hids ▸ hid)
    obtain rfl := row_eq_of_id hkept.ids hdue hrow hdueId
    have := hmeets c' raw hraw due hdue heq.symm
    rw [hisDue] at this
    cases this
  have hleft : ∀ row ∈ w.rows, row.id ∈ ids → row.attempts < row.maxAttempts := by
    intro row hrow hid
    by_contra hspent
    obtain ⟨c', raw, hraw, heq⟩ := h.last row hrow (by omega)
    exact hfree row hrow hid c' raw hraw heq
  have hbatch : ∀ raw, raw ∈ (claimed.2.insertionSort fun (a b : Row) => a.id ≤ b.id).map Row.job ↔
      ∃ row ∈ w.rows, row.id ∈ ids ∧ raw = (row.claimed visibleAt).job := by
    intro raw
    simp only [List.mem_map, List.mem_insertionSort, ← hclaim, mem_returned, hids]
    constructor
    · rintro ⟨_, ⟨row, hrow, hid, rfl⟩, rfl⟩
      exact ⟨row, hrow, hid, rfl⟩
    · rintro ⟨row, hrow, hid, rfl⟩
      exact ⟨_, ⟨row, hrow, hid, rfl⟩, rfl⟩
  generalize hbatchEq : (claimed.2.insertionSort fun (a b : Row) => a.id ≤ b.id).map Row.job = batch at hbatch
  have hinHand : ∀ c' raw, raw ∈ (({ w with rows := claimed.1 }.setConsumer c ⟨none, batch⟩).consumers c').inHand →
      (c' = c ∧ raw ∈ batch) ∨ (c' ≠ c ∧ raw ∈ (w.consumers c').inHand) := by
    intro c' raw hraw
    by_cases hc : c' = c
    · subst hc
      refine .inl ⟨rfl, ?_⟩
      simpa [World.setConsumer, Consumer.inHand] using hraw
    · exact .inr ⟨hc, by simpa [World.setConsumer, hc] using hraw⟩
  have hrow : ∀ row ∈ claimed.1, ∃ old ∈ w.rows,
      (old.id ∈ ids ∧ row = old.claimed visibleAt) ∨ (old.id ∉ ids ∧ row = old) := by
    intro row hrow
    obtain ⟨old, hold, hcases⟩ := mem_claim (hclaim ▸ hrow)
    exact ⟨old, hold, hids ▸ hcases⟩
  refine ⟨?_, ?_, ?_, ?_, ?_, ?_, ?_, ?_, h.budget, h.unsent, h.settled⟩
  · intro c' raw hraw
    rcases hinHand c' raw hraw with ⟨_, hraw⟩ | ⟨_, hraw⟩
    · obtain ⟨old, hold, hid, rfl⟩ := (hbatch raw).mp hraw
      refine ⟨old.claimed visibleAt, ?_, rfl, rfl, rfl⟩
      exact hclaim ▸ claim_taken hold (hids ▸ hid)
    · obtain ⟨old, hold, hid, hattempts, hmax⟩ := h.row c' raw hraw
      refine ⟨old, ?_, hid, hattempts, hmax⟩
      refine hclaim ▸ claim_left hold (hids ▸ fun hsel => ?_)
      exact hfree old hold hsel c' raw hraw hid.symm
  · intro c'
    refine setConsumer_cases (P := fun k => (k.inHand.map Job.id).Nodup) ?_ (h.apart c')
    have hperm : (batch.map Job.id).Perm (claimed.2.map Row.id) := by
      rw [← hbatchEq, List.map_map]
      exact (List.perm_insertionSort _ _).map _
    simp only [Consumer.inHand, Option.map_none, Option.toList_none, List.nil_append]
    exact hperm.nodup_iff.mpr (hclaim ▸ returned_ids hkept.ids)
  · intro c₁ c₂ raw raw' h₁ h₂ heq
    rcases hinHand c₁ raw h₁ with ⟨rfl, hb₁⟩ | ⟨_, ho₁⟩
    · rcases hinHand c₂ raw' h₂ with ⟨rfl, _⟩ | ⟨_, ho₂⟩
      · rfl
      · obtain ⟨old, hold, hid, rfl⟩ := (hbatch raw).mp hb₁
        exact absurd heq.symm (hfree old hold hid c₂ raw' ho₂)
    · rcases hinHand c₂ raw' h₂ with ⟨rfl, hb₂⟩ | ⟨_, ho₂⟩
      · obtain ⟨old, hold, hid, rfl⟩ := (hbatch raw').mp hb₂
        exact absurd heq (hfree old hold hid c₁ raw ho₁)
      · exact h.one c₁ c₂ raw raw' ho₁ ho₂ heq
  · intro c' raw due
    refine setConsumer_cases (P := fun k => k.current = some (raw, .settling (.defer due)) → _) ?_ (h.deferring c' raw due)
    intro hcurrent
    cases hcurrent
  · intro c' raw
    refine setConsumer_cases (P := fun k => raw ∈ k.rest → w.handed raw.id < raw.attempts) ?_ (h.waiting c' raw)
    intro hraw
    obtain ⟨old, hold, hid, rfl⟩ := (hbatch raw).mp hraw
    exact Nat.lt_succ_of_le (h.counted old hold)
  · intro row hmem
    obtain ⟨old, hold, ⟨_, rfl⟩ | ⟨_, rfl⟩⟩ := hrow row hmem
    · exact Nat.le_succ_of_le (h.counted old hold)
    · exact h.counted row hold
  · intro row hmem
    obtain ⟨old, hold, ⟨hid, rfl⟩ | ⟨_, rfl⟩⟩ := hrow row hmem
    · exact hleft old hold hid
    · exact h.within row hold
  · intro row hmem hspent
    obtain ⟨old, hold, ⟨hid, rfl⟩ | ⟨_, rfl⟩⟩ := hrow row hmem
    · refine ⟨c, (old.claimed visibleAt).job, ?_, rfl⟩
      simpa [World.setConsumer, Consumer.inHand] using (hbatch _).mpr ⟨old, hold, hid, rfl⟩
    · obtain ⟨c', raw, hraw, heq⟩ := h.last row hold hspent
      have hc : c' ≠ c := by
        rintro rfl
        rw [hidle] at hraw
        cases hraw
      exact ⟨c', raw, by simpa [World.setConsumer, hc] using hraw, heq⟩

/-- The delivery handed over was waiting, so it had not been counted yet. -/
theorem held_handed (h : Held w) (hkept : Kept w) {rest : List (Job String)} (hk : w.consumers c = ⟨none, raw :: rest⟩)
    {phase : Phase T} (hdefer : ∀ visibleAt, phase = .settling (.defer visibleAt) → raw.attempts < raw.maxAttempts)
    (w' : World T) (hrows : w'.rows = w.rows) (hsent : w'.sent = w.sent) (hconsumers : w'.consumers = w.consumers)
    (hhanded : w'.handed = Function.update w.handed raw.id (w.handed raw.id + 1)) (hsettled : w'.settlements = w.settlements) :
    Held (w'.setConsumer c ⟨some (raw, phase), rest⟩) := by
  have hinHand : (w.consumers c).inHand = raw :: rest := by
    rw [hk]
    rfl
  have hraw : raw ∈ (w.consumers c).inHand := by
    rw [hinHand]
    exact List.mem_cons_self
  obtain ⟨own, hown, hownId, hownAttempts, hownMax⟩ := h.row c raw hraw
  have hlt : w.handed raw.id < raw.attempts := h.waiting c raw (by rw [hk]; exact List.mem_cons_self)
  have hmoved : Held (w.setConsumer c ⟨some (raw, phase), rest⟩) := by
    refine h.setConsumer hkept w rfl rfl rfl rfl rfl c ?_ ?_ ?_ ?_
    · rw [hinHand]
      exact List.Sublist.refl _
    · intro raw' hraw'
      rw [hk]
      exact List.mem_cons_of_mem _ hraw'
    · intro raw' visibleAt heq
      simp only [Option.some.injEq, Prod.mk.injEq] at heq
      obtain ⟨rfl, hphase⟩ := heq
      exact hdefer visibleAt hphase
    · intro raw' hraw' _
      rw [hinHand] at hraw'
      exact hraw'
  have hne : ∀ c', ∀ raw' ∈ ((w.setConsumer c ⟨some (raw, phase), rest⟩).consumers c').rest, raw'.id ≠ raw.id := by
    intro c' raw' hraw' heq
    by_cases hc : c' = c
    · subst hc
      have hapart := h.apart c'
      rw [hinHand] at hapart
      simp only [List.map_cons, List.nodup_cons] at hapart
      have hmem : raw' ∈ rest := by simpa [World.setConsumer] using hraw'
      exact hapart.1 (List.mem_map.mpr ⟨raw', hmem, heq⟩)
    · have hmem : raw' ∈ (w.consumers c').rest := by simpa [World.setConsumer, hc] using hraw'
      exact hc (h.one c' c raw' raw ((mem_inHand).mpr (.inr hmem)) hraw heq)
  have hsame : (w'.setConsumer c ⟨some (raw, phase), rest⟩).consumers =
      (w.setConsumer c ⟨some (raw, phase), rest⟩).consumers := by
    simp only [World.setConsumer, hconsumers]
  have hcount : ∀ id m, w.handed id ≤ m → (id = raw.id → raw.attempts ≤ m) → w'.handed id ≤ m := by
    intro id m hle hown
    rw [hhanded]
    by_cases heq : id = raw.id
    · subst heq
      rw [Function.update_self]
      have := hown rfl
      omega
    · rw [Function.update_of_ne heq]
      exact hle
  refine ⟨?_, ?_, ?_, ?_, ?_, ?_, ?_, ?_, ?_, ?_, ?_⟩
  · rw [hsame]
    show ∀ c', ∀ raw' ∈ _, ∃ row ∈ w'.rows, _
    rw [hrows]
    exact hmoved.row
  · rw [hsame]
    exact hmoved.apart
  · rw [hsame]
    exact hmoved.one
  · rw [hsame]
    exact hmoved.deferring
  · rw [hsame]
    intro c' raw' hraw'
    show w'.handed raw'.id < raw'.attempts
    rw [hhanded, Function.update_of_ne (hne c' raw' hraw')]
    exact hmoved.waiting c' raw' hraw'
  · intro row hrow
    refine hcount row.id row.attempts (h.counted row (hrows ▸ hrow)) fun heq => ?_
    obtain rfl := row_eq_of_id hkept.ids (hrows ▸ hrow) hown (heq.trans hownId.symm)
    exact hownAttempts.ge
  · exact fun row hrow => h.within row (hrows ▸ hrow)
  · rw [hsame]
    exact fun row hrow => hmoved.last row (hrows ▸ hrow)
  · intro id m hid
    refine hcount id m (h.budget id m (hsent ▸ hid)) fun heq => ?_
    have hown' := hkept.rows own hown
    rw [hownId, ← heq] at hown'
    have hm : some m = some own.maxAttempts := by
      rw [← hown', ← hsent]
      exact hid.symm
    have := h.within own hown
    cases hm
    omega
  · intro id hid
    show w'.handed id = 0
    have hne : id ≠ raw.id := by
      rintro rfl
      have hown' := hkept.rows own hown
      rw [hownId, ← hsent] at hown'
      exact nomatch hown'.symm.trans hid
    rw [hhanded, Function.update_of_ne hne]
    exact h.unsent id (hsent ▸ hid)
  · exact fun settled hmem => h.settled settled (hsettled ▸ hmem)

theorem held_settled (h : Held w) (hkept : Kept w) {settlement : Settlement} {rest : List (Job String)}
    (hk : w.consumers c = ⟨some (raw, .settling settlement), rest⟩) :
    Held ({ w with
      rows := settlement.apply w.rows raw.id
      settlements := w.settlements ++ settledOn w.rows raw }.setConsumer c ⟨none, rest⟩) := by
  have hcurrent : raw ∈ (w.consumers c).inHand := by simp [hk, Consumer.inHand]
  have hrest : ∀ raw' ∈ rest, raw' ∈ (w.consumers c).inHand := by
    intro raw' hraw'
    simp [hk, Consumer.inHand, hraw']
  obtain ⟨own, hown, hownId, hownAttempts, hownMax⟩ := h.row c raw hcurrent
  have hinHand : ∀ c' raw', raw' ∈ (({ w with
        rows := settlement.apply w.rows raw.id
        settlements := w.settlements ++ settledOn w.rows raw }.setConsumer c ⟨none, rest⟩).consumers c').inHand →
      raw' ∈ (w.consumers c').inHand ∧ raw'.id ≠ raw.id := by
    intro c' raw' hraw'
    by_cases hc : c' = c
    · subst hc
      have hmem : raw' ∈ rest := by simpa [World.setConsumer, Consumer.inHand] using hraw'
      refine ⟨hrest raw' hmem, fun heq => ?_⟩
      have hapart := h.apart c'
      simp only [hk, Consumer.inHand, Option.map_some, Option.toList_some, List.cons_append, List.nil_append, List.map_cons,
        List.nodup_cons] at hapart
      exact hapart.1 (List.mem_map.mpr ⟨raw', hmem, heq⟩)
    · have hmem : raw' ∈ (w.consumers c').inHand := by simpa [World.setConsumer, hc] using hraw'
      exact ⟨hmem, fun heq => hc (h.one c' c raw' raw hmem hcurrent heq)⟩
  refine ⟨?_, ?_, ?_, ?_, ?_, ?_, ?_, ?_, h.budget, h.unsent, ?_⟩
  · intro c' raw' hraw'
    obtain ⟨hmem, hne⟩ := hinHand c' raw' hraw'
    obtain ⟨old, hold, hid, hattempts, hmax⟩ := h.row c' raw' hmem
    obtain ⟨row, hrow, hrowId, hrowAttempts, hrowMax⟩ := settlement_other settlement hold (hid ▸ hne)
    exact ⟨row, hrow, hrowId.trans hid, hrowAttempts.trans hattempts, hrowMax.trans hmax⟩
  · intro c'
    refine setConsumer_cases (P := fun k => (k.inHand.map Job.id).Nodup) ?_ (h.apart c')
    have hapart := h.apart c
    simp only [hk, Consumer.inHand, Option.map_some, Option.toList_some, List.cons_append, List.nil_append, List.map_cons,
      List.nodup_cons] at hapart
    simpa [Consumer.inHand] using hapart.2
  · intro c₁ c₂ raw₁ raw₂ h₁ h₂
    exact h.one c₁ c₂ raw₁ raw₂ (hinHand c₁ raw₁ h₁).1 (hinHand c₂ raw₂ h₂).1
  · intro c' raw' due
    refine setConsumer_cases (P := fun k => k.current = some (raw', .settling (.defer due)) → _) ?_ (h.deferring c' raw' due)
    intro hnone
    cases hnone
  · intro c' raw'
    refine setConsumer_cases (P := fun k => raw' ∈ k.rest → w.handed raw'.id < raw'.attempts) ?_ (h.waiting c' raw')
    intro hraw'
    exact h.waiting c raw' (by rw [hk]; exact hraw')
  · intro row hrow
    obtain ⟨old, hold, hid, hattempts, -⟩ := settlement_row hrow
    rw [hid, hattempts]
    exact h.counted old hold
  · intro row hrow
    obtain ⟨old, hold, -, hattempts, hmax⟩ := settlement_row hrow
    rw [hattempts, hmax]
    exact h.within old hold
  · intro row hrow hspent
    obtain ⟨old, hold, hid, hattempts, hmax⟩ := settlement_row hrow
    obtain ⟨c', raw', hraw', heq⟩ := h.last old hold (by omega)
    have hne : raw'.id ≠ raw.id := by
      intro hsame
      -- Only a defer leaves the settled job's row, and that row has an attempt left.
      cases settlement with
      | ack => exact ((mem_ack).mp hrow).2 (by rw [hid, ← heq, hsame])
      | defer visibleAt =>
        have hleft := h.deferring c raw visibleAt (by rw [hk])
        obtain rfl := row_eq_of_id hkept.ids hold hown (by rw [← heq, hsame, hownId])
        omega
    refine ⟨c', raw', ?_, heq.trans hid.symm⟩
    by_cases hc : c' = c
    · subst hc
      rw [mem_inHand, hk] at hraw'
      rcases hraw' with ⟨phase, hphase⟩ | hraw'
      · cases hphase
        exact absurd rfl hne
      · simpa [World.setConsumer, Consumer.inHand] using hraw'
    · simpa [World.setConsumer, hc] using hraw'
  · intro settled hsettled
    rcases List.mem_append.mp hsettled with hsettled | hsettled
    · exact h.settled settled hsettled
    · obtain ⟨row, hrow, rfl⟩ := List.mem_map.mp hsettled
      obtain ⟨hmem, hid⟩ := List.mem_filter.mp hrow
      obtain rfl := row_eq_of_id hkept.ids hmem hown (by rw [hownId]; exact of_decide_eq_true hid)
      exact hownAttempts.symm

theorem held_step (h : Held w) (hkept : Kept w) (hmeets : Meets options w event) : Held (w.step options event) := by
  have hmoves := step_moves options w event
  generalize w.step options event = w' at hmoves
  cases hmoves with
  | same => exact h
  | ticked => exact { h with }
  | sent hfresh hattempts => exact held_sent h hfresh hattempts hmeets
  | claimed hidle => exact held_claimed h hkept hidle hmeets
  | handed hk =>
    refine held_handed h hkept hk (fun visibleAt heq => ?_) _ rfl rfl rfl rfl rfl
    cases heq
  | unread hk =>
    refine held_handed h hkept hk (fun visibleAt heq => ?_) _ (by simp) (by simp) (by simp) (by simp) (by simp)
    exact failed_defer (Phase.settling.inj heq)
  | @returned c raw job startedAt rest hk =>
    refine h.setConsumer hkept { w with returned := Function.update w.returned raw.id true } rfl rfl rfl rfl rfl c ?_ ?_ ?_ ?_
    · rw [hk]
      exact List.Sublist.refl _
    · intro raw' hraw'
      rw [hk]
      exact hraw'
    · intro raw' visibleAt heq
      cases heq
    · intro raw' hraw' _
      rw [hk] at hraw'
      exact hraw'
  | @threw c raw job startedAt rest hk =>
    refine h.setConsumer hkept (w.fails raw) (by simp) (by simp) (by simp) (by simp) (by simp) c ?_ ?_ ?_ ?_
    · rw [hk]
      exact List.Sublist.refl _
    · intro raw' hraw'
      rw [hk]
      exact hraw'
    · intro raw' visibleAt heq
      simp only [Option.some.injEq, Prod.mk.injEq, Phase.settling.injEq] at heq
      obtain ⟨rfl, hfailed⟩ := heq
      exact failed_defer hfailed
    · intro raw' hraw' _
      rw [hk] at hraw'
      exact hraw'
  | settled hk => exact held_settled h hkept hk
  | @unsettled c raw settlement rest hk =>
    refine h.setConsumer hkept w rfl rfl rfl rfl rfl c ?_ ?_ ?_ ?_
    · rw [hk]
      exact List.sublist_cons_self _ _
    · intro raw' hraw'
      rw [hk]
      exact hraw'
    · intro raw' visibleAt heq
      cases heq
    · intro raw' hraw' hlast
      rw [mem_inHand, hk] at hraw'
      rcases hraw' with ⟨phase, hphase⟩ | hraw'
      · cases hphase
        have := hmeets raw settlement (by rw [hk])
        omega
      · exact (mem_inHand).mpr (.inr hraw')
  | @died c =>
    refine h.setConsumer hkept w rfl rfl rfl rfl rfl c ?_ ?_ ?_ ?_
    · exact List.nil_sublist _
    · intro raw' hraw'
      cases hraw'
    · intro raw' visibleAt heq
      cases heq
    · intro raw' hraw' hlast
      have := hmeets raw' hraw'
      omega

/-! ## What the queue delivers -/

/-- What holds in a state: a row goes only behind a call that returned or a failed last delivery; one consumer at a
    time runs a job; every settlement met the claim of its own delivery; a job is handed over at most as often as it
    was sent for, and goes with its last delivery. -/
structure Delivers (w : World T) : Prop where
  kept : ∀ id m, w.sent id = some m → (∀ row ∈ w.rows, row.id ≠ id) → w.returned id = true ∨ w.spent id = true
  alone : ∀ c c' id, w.Runs c id → w.Runs c' id → c = c'
  settled : ∀ settled ∈ w.settlements, settled.delivery = settled.claim
  budget : ∀ id m, w.sent id = some m → w.handed id ≤ m
  dropped : ∀ row ∈ w.rows, row.maxAttempts ≤ row.attempts → ∃ c, ∃ raw ∈ (w.consumers c).inHand, raw.id = row.id

theorem delivers_of (hkept : Kept w) (h : Held w) : Delivers w where
  kept id m hid hgone := by
    rcases hkept.gone id m hid with ⟨row, hrow, hrowId⟩ | hreason
    · exact absurd hrowId (hgone row hrow)
    · exact hreason
  alone c c' id := by
    rintro ⟨raw, job, startedAt, hcurrent, rfl⟩ ⟨raw', job', startedAt', hcurrent', hid⟩
    exact h.one c c' raw raw' ((mem_inHand).mpr (.inl ⟨_, hcurrent⟩)) ((mem_inHand).mpr (.inl ⟨_, hcurrent'⟩)) hid.symm
  settled := h.settled
  budget := h.budget
  dropped := h.last

theorem held_after (hkept : Kept w) (h : Held w) (events : List Event) (hmeets : MeetsAll options w events) :
    Kept (w.after options events) ∧ Held (w.after options events) := by
  induction events generalizing w with
  | nil => exact ⟨hkept, h⟩
  | cons event rest ih => exact ih (kept_step hkept) (held_step h hkept hmeets.1) hmeets.2

theorem queue_delivers (options : Nat → Options T) (now : Int) (events : List Event)
    (hmeets : MeetsAll options (.start now) events) : Delivers ((World.start now).after options events) := by
  obtain ⟨hkept, hheld⟩ := held_after (kept_start now) (held_start now) events hmeets
  exact delivers_of hkept hheld

def InTimeAll (options : Nat → Options T) (w : World T) : List Event → Prop
  | [] => w.InTime options
  | event :: rest => w.InTime options ∧ InTimeAll options (w.step options event) rest

/-- Two consumers of one queue that read every payload, hide a batch of two for ten milliseconds and retry at once. -/
def pairOfTwo : Nat → Options Unit := fun _ => ⟨"mail", fun _ => some (), 2, 10, fun _ => 0⟩

theorem a_failed_job_is_retried_and_dropped :
    Delivers ((World.start 0).after pairOfTwo [.send 0 "mail" "{}" 0 2, .poll 0 [], .begins 0, .throws 0, .settles 0, .poll 1 [],
      .begins 1, .throws 1, .settles 1]) := by
  refine queue_delivers pairOfTwo 0 _ ?_
  simp only [MeetsAll, Meets, true_and, and_true]
  refine ⟨by decide, fun c raw hraw => ?_, fun c raw hraw => ?_⟩
  · cases hraw
  · rcases c with _ | c
    · cases hraw
    · cases hraw

/-- The second job of a batch is claimed again while its handler runs, and every call is in time. -/
theorem a_slow_batch_runs_a_job_twice : ¬∀ (options : Nat → Options Unit) (now : Int) (events : List Event),
    InTimeAll options (.start now) events → Delivers ((World.start now).after options events) := by
  intro h
  have hruns :=
    (h pairOfTwo 0 [.send 0 "mail" "{}" 0 2, .send 1 "mail" "{}" 0 2, .poll 0 [], .begins 0, .tick 10, .returns 0, .settles 0,
    .begins 0, .poll 1 [], .begins 1] ?_).alone 0 1 1 ⟨⟨1, "{}", 1, 2⟩, ⟨1, (), 1, 2⟩, 10, by rfl, rfl⟩
      ⟨⟨1, "{}", 2, 2⟩, ⟨1, (), 2, 2⟩, 10, by rfl, rfl⟩
  · cases hruns
  · simp only [InTimeAll]
    refine ⟨?_, ?_, ?_, ?_, ?_, ?_, ?_, ?_, ?_, ?_, ?_⟩
    all_goals
      intro c
      rcases c with _ | _ | c
      · rfl
      · rfl
      · rfl

/-- A consumer acks a job that another delivery claimed since. -/
theorem a_lapsed_delivery_settles_anothers_claim : ¬∀ (options : Nat → Options Unit) (now : Int) (events : List Event),
    InTimeAll options (.start now) events → ∀ settled ∈ ((World.start now).after options events).settlements,
      settled.delivery = settled.claim := by
  intro h
  have hsettled :=
    h pairOfTwo 0 [.send 0 "mail" "{}" 0 2, .send 1 "mail" "{}" 0 2, .poll 0 [], .begins 0, .tick 10, .returns 0, .settles 0,
    .begins 0, .poll 1 [], .returns 0, .settles 0] ?_ ⟨1, 1, 2⟩ (by decide)
  · cases hsettled
  · simp only [InTimeAll]
    refine ⟨?_, ?_, ?_, ?_, ?_, ?_, ?_, ?_, ?_, ?_, ?_, ?_⟩
    all_goals
      intro c
      rcases c with _ | _ | c
      · rfl
      · rfl
      · rfl

/-- A job that takes its consumer down is handed over behind its last attempt. -/
theorem a_crash_hands_a_job_over_again :
    ((World.start 0).after pairOfTwo [.send 0 "mail" "{}" 0 1, .poll 0 [], .begins 0, .dies 0, .tick 10, .poll 1 [],
      .begins 1]).handed 0 = 2 := by
  decide

end Fabrika.Platform.JobQueue
