import WalG.Mongo.ReplayHandler

/-! # When a replay hangs

A fetcher that has sent an error is not read again.
-/
namespace WalG.Mongo
open Foundation List

/-- What the fetcher sends: operations, and then the errors it ends with. -/
def script (ops : List OplogEntry) (errs : List FetchError) : List FetchAction :=
  ops.map FetchAction.data ++ errs.map FetchAction.err

theorem or_ne_none_left {err : Option ReplayError} (h : err ≠ none) (other : Option ReplayError) :
    err.or other ≠ none :=
  fun hnone => h (Option.or_eq_none_iff.mp hnone).1

theorem or_some_ne_none (err : Option ReplayError) (e : ReplayError) : err.or (some e) ≠ none :=
  fun hnone => nomatch (Option.or_eq_none_iff.mp hnone).2

/-- The second error of a fetcher is never read. With an error left, all operations before
it were given to the applier. -/
structure ReplayInv (ops : List OplogEntry) (errs : List FetchError) (fails : ℕ → Bool) (s : ReplayState) : Prop where
  left : ∃ ops' errs', s.actions = script ops' errs' ∧
    (errs' ≠ [] → ops'.length + s.given = ops.length) ∧
    (errs' ≠ [] → s.fetchReader ≠ .waiting → errs'.length < errs.length) ∧ errs'.length ≤ errs.length
  ranging : s.applier = .ranging → ∀ k < s.given, fails k = false
  applying : ∀ k, s.applier = .applying k → s.given = k + 1 ∧ ∀ j < k, fails j = false
  applyReader : s.applier ≠ .closed → s.applyReader = .waiting
  closed : s.applier = .closed →
    s.fetcher ≠ .sending ∨ (∃ e, s.applyReader = .received (some e)) ∨ s.cancelled = true
  drained : s.fetcher ≠ .sending → s.actions = []
  reports : s.sent = true →
    s.err ≠ none ∨ (∃ e, s.fetchReader = .received (some e)) ∨ ∃ e, s.applyReader = .received (some e)

namespace ReplayInv

variable {ops : List OplogEntry} {errs : List FetchError} {fails : ℕ → Bool} {s s' : ReplayState}

theorem start : ReplayInv ops errs fails { actions := script ops errs } where
  left := ⟨ops, errs, rfl, fun _ => rfl, fun _ h => absurd rfl h, le_rfl⟩
  ranging _ k hk := absurd hk (Nat.not_lt_zero k)
  applying := nofun
  applyReader _ := rfl
  closed := nofun
  drained h := absurd rfl h
  reports := nofun

theorem script_eq_data {ops' : List OplogEntry} {errs' : List FetchError} {op : OplogEntry} {rest : List FetchAction}
    (h : script ops' errs' = .data op :: rest) : ∃ ops'', ops' = op :: ops'' ∧ rest = script ops'' errs' := by
  cases ops' with
  | nil => cases errs' <;> simp [script] at h
  | cons op' ops'' =>
    simp only [script, map_cons, cons_append, cons.injEq, FetchAction.data.injEq] at h
    exact ⟨ops'', by rw [h.1], h.2.symm⟩

theorem script_eq_err {ops' : List OplogEntry} {errs' : List FetchError} {e : FetchError} {rest : List FetchAction}
    (h : script ops' errs' = .err e :: rest) : ops' = [] ∧ ∃ errs'', errs' = e :: errs'' ∧ rest = script [] errs'' := by
  cases ops' with
  | cons op' ops'' => simp [script] at h
  | nil =>
    cases errs' with
    | nil => simp [script] at h
    | cons e' errs'' =>
      simp only [script, map_nil, nil_append, map_cons, cons.injEq, FetchAction.err.injEq] at h
      exact ⟨rfl, errs'', by rw [h.1], h.2.symm⟩

theorem step (h : ReplayInv ops errs fails s) (hstep : ReplayStep fails s s') : ReplayInv ops errs fails s' := by
  obtain ⟨ops', errs', hleft, hgiven, herrs, hle⟩ := h.left
  cases hstep with
  | @send op rest hf hactions ha =>
    obtain ⟨ops'', rfl, rfl⟩ := script_eq_data (hleft.symm.trans hactions)
    refine { h with
      left := ⟨ops'', errs', rfl, fun hne => ?_, herrs, hle⟩
      ranging := nofun
      applying := fun k hk => ?_
      applyReader := fun _ => h.applyReader (by rw [ha]; decide)
      closed := nofun
      drained := fun hne => absurd hf hne }
    · have hlen := hgiven hne
      rw [length_cons] at hlen
      dsimp only
      omega
    · cases hk
      exact ⟨rfl, h.ranging ha⟩
  | cancel hf hactions hc =>
    exact { h with
      left := ⟨[], [], rfl, fun h => absurd rfl h, fun h => absurd rfl h, Nat.zero_le _⟩
      drained := fun _ => rfl }
  | @sendErr e rest hf hactions hr =>
    obtain ⟨rfl, errs'', rfl, rfl⟩ := script_eq_err (hleft.symm.trans hactions)
    rw [length_cons] at hle
    exact { h with
      left := ⟨[], errs'', rfl, fun _ => hgiven (cons_ne_nil _ _), fun _ _ => hle, by omega⟩
      drained := fun hne => absurd hf hne
      reports := fun _ => .inr (.inl ⟨_, rfl⟩) }
  | closeData hf hactions => exact { h with closed := fun _ => .inl nofun, drained := fun _ => hactions }
  | closeErrc hf =>
    exact { h with closed := fun _ => .inl nofun, drained := fun _ => h.drained (by rw [hf]; decide) }
  | applied ha hk =>
    obtain ⟨hgiven', hall⟩ := h.applying _ ha
    refine { h with
      ranging := fun _ j hj => ?_
      applying := nofun
      applyReader := fun _ => h.applyReader (by rw [ha]; nofun)
      closed := nofun }
    rcases Nat.lt_succ_iff_lt_or_eq.mp (hgiven' ▸ hj) with hlt | rfl
    · exact hall j hlt
    · exact hk
  | applyFailed ha hk =>
    exact { h with
      ranging := nofun
      applying := nofun
      applyReader := fun _ => h.applyReader (by rw [ha]; nofun)
      closed := nofun }
  | sendApplyErr ha hr =>
    exact { h with
      ranging := nofun
      applying := nofun
      applyReader := fun hne => absurd rfl hne
      closed := fun _ => .inr (.inl ⟨_, rfl⟩)
      reports := fun _ => .inr (.inr ⟨_, rfl⟩) }
  | rangeDone ha hf =>
    exact { h with
      ranging := nofun
      applying := nofun
      applyReader := fun hne => absurd rfl hne
      closed := fun _ => .inl hf }
  | readFetchClosed hr hf =>
    refine { h with
      left := ⟨[], [], h.drained (by rw [hf]; decide), fun h => absurd rfl h, fun h => absurd rfl h, Nat.zero_le _⟩
      reports := fun hsent => (h.reports hsent).imp_right (Or.imp_left ?_) }
    exact fun ⟨_, he⟩ => nomatch hr.symm.trans he
  | readApplyClosed hr ha =>
    have hnone : ¬ ∃ e, s.applyReader = .received (some e) := fun ⟨_, he⟩ => nomatch hr.symm.trans he
    exact { h with
      applyReader := fun hne => absurd ha hne
      closed := fun ha => (h.closed ha).imp_right (Or.imp_left (absurd · hnone))
      reports := fun hsent => (h.reports hsent).imp_right (Or.imp_right (absurd · hnone)) }
  | @fetchReturned err hr =>
    refine { h with
      left := ⟨ops', errs', hleft, hgiven, fun hne _ => herrs hne (by rw [hr]; nofun), hle⟩
      closed := fun ha => (h.closed ha).imp_right (Or.imp_right (Bool.or_eq_true_iff.mpr <| .inl ·))
      reports := fun hsent => ?_ }
    rcases h.reports hsent with herr | ⟨e, he⟩ | happly
    · exact .inl (or_ne_none_left herr _)
    · obtain rfl := ReaderPhase.received.inj (hr.symm.trans he)
      exact .inl (or_some_ne_none _ e)
    · exact .inr (.inr happly)
  | @applyReturned err hr =>
    have hclosed : s.applier = .closed := by
      by_contra hne
      exact nomatch hr.symm.trans (h.applyReader hne)
    refine { h with
      applyReader := fun hne => absurd hclosed hne
      closed := fun _ => ?_
      reports := fun hsent => ?_ }
    · rcases h.closed hclosed with hf | ⟨e, he⟩ | hc
      · exact .inl hf
      · obtain rfl := ReaderPhase.received.inj (hr.symm.trans he)
        exact .inr (.inr (Bool.or_true _))
      · exact .inr (.inr (Bool.or_eq_true_iff.mpr (.inl hc)))
    · rcases h.reports hsent with herr | hfetch | ⟨e, he⟩
      · exact .inl (or_ne_none_left herr _)
      · exact .inr (.inl hfetch)
      · obtain rfl := ReaderPhase.received.inj (hr.symm.trans he)
        exact .inl (or_some_ne_none _ e)

theorem of_reaches (h : Reaches (script ops errs) fails s) : ReplayInv ops errs fails s :=
  invariant_of_steps (fun _ _ h hstep => h.step hstep) start h

/-- The handler is stuck only behind a second error of the fetcher. -/
theorem exists_step (h : ReplayInv ops errs fails s) (hreturned : ¬ s.Returned)
    (hcond : errs.length ≤ 1 ∨ ∃ k < ops.length, fails k = true) : ∃ s', ReplayStep fails s s' := by
  by_contra hstuck
  have hno : ∀ s', ¬ ReplayStep fails s s' := fun s' hs' => hstuck ⟨s', hs'⟩
  have happlier : s.applier = .ranging ∨ s.applier = .closed := by
    cases ha : s.applier with
    | ranging => exact .inl rfl
    | applying k =>
      cases hk : fails k with
      | false => exact absurd (.applied ha hk) (hno _)
      | true => exact absurd (.applyFailed ha hk) (hno _)
    | failing => exact absurd (.sendApplyErr ha (h.applyReader (by rw [ha]; decide))) (hno _)
    | closed => exact .inr rfl
  have hreader : s.fetchReader = .waiting ∨ s.fetchReader = .finished := by
    cases hfr : s.fetchReader with
    | waiting => exact .inl rfl
    | received err => exact absurd (.fetchReturned hfr) (hno _)
    | finished => exact .inr rfl
  -- once the reader of the fetcher is done, an applier that has ended leaves nothing to wait for
  have hranging : s.fetchReader = .finished → s.applier = .ranging := by
    intro hfr
    refine happlier.resolve_right fun ha => ?_
    cases har : s.applyReader with
    | waiting => exact hno _ (.readApplyClosed har ha)
    | received err => exact hno _ (.applyReturned har)
    | finished => exact hreturned ⟨hfr, har⟩
  obtain ⟨ops', errs', hleft, hgiven, herrs, -⟩ := h.left
  -- the fetcher is still sending, and its next message is not taken
  have hsending : s.fetcher = .sending := by
    cases hf : s.fetcher with
    | sending => rfl
    | dataClosed => exact absurd (.closeErrc hf) (hno _)
    | closed =>
      rcases hreader with hfr | hfr
      · exact absurd (.readFetchClosed hfr hf) (hno _)
      · exact absurd (.rangeDone (hranging hfr) (by rw [hf]; decide)) (hno _)
  cases hactions : s.actions with
  | nil => exact hno _ (.closeData hsending hactions)
  | cons action rest =>
    cases action with
    | data op =>
      rcases happlier with ha | ha
      · exact hno _ (.send hsending hactions ha)
      · rcases h.closed ha with hf | ⟨e, he⟩ | hc
        · exact hf hsending
        · exact hno _ (.applyReturned he)
        · exact hno _ (.cancel hsending hactions hc)
    | err e =>
      have hwaiting : s.fetchReader ≠ .waiting := fun hr => hno _ (.sendErr hsending hactions hr)
      have ha := hranging (hreader.resolve_left hwaiting)
      obtain ⟨rfl, errs'', rfl, -⟩ := script_eq_err (hleft.symm.trans hactions)
      have hlt := herrs (cons_ne_nil _ _) hwaiting
      rw [length_cons] at hlt
      have hall : s.given = ops.length := by simpa using hgiven (cons_ne_nil _ _)
      rcases hcond with hone | ⟨k, hk, hfails⟩
      · omega
      · rw [h.ranging ha k (hall ▸ hk)] at hfails
        cases hfails

end ReplayInv

section Deadlock

variable {ops : List OplogEntry} {errs : List FetchError} {fails : ℕ → Bool}

theorem reaches_given {n : ℕ} (hfails : ∀ k < ops.length, fails (n + k) = false) :
    Relation.ReflTransGen (ReplayStep fails) { actions := script ops errs, given := n }
      { actions := script [] errs, given := n + ops.length } := by
  induction ops generalizing n with
  | nil => exact .refl
  | cons op ops ih =>
    have hsend : ReplayStep fails { actions := script (op :: ops) errs, given := n }
        { actions := script ops errs, given := n + 1, applier := .applying n } := .send rfl rfl rfl
    have happly : ReplayStep fails { actions := script ops errs, given := n + 1, applier := .applying n }
        { actions := script ops errs, given := n + 1 } := .applied rfl (hfails 0 (Nat.succ_pos _))
    have hrest := @ih (n + 1) fun k hk => by
      rw [Nat.add_assoc, Nat.add_comm 1 k]
      exact hfails (k + 1) (Nat.succ_lt_succ hk)
    rw [length_cons, Nat.add_comm ops.length 1, ← Nat.add_assoc]
    exact .head hsend (.head happly hrest)

/-- The fetcher holds a second error, and the applier waits for the end of the operations. -/
def stuckState (errs : List FetchError) (e : FetchError) (given : ℕ) : ReplayState where
  actions := script [] errs
  given := given
  fetchReader := .finished
  cancelled := true
  err := some (.fetch e)
  sent := true

theorem reaches_stuckState {e : FetchError} (hfails : ∀ k < ops.length, fails k = false) :
    Reaches (script ops (e :: errs)) fails (stuckState errs e ops.length) := by
  have hgiven : Relation.ReflTransGen (ReplayStep fails) { actions := script ops (e :: errs) }
      { actions := script [] (e :: errs), given := ops.length } := by
    have h := @reaches_given ops (e :: errs) fails 0 fun k hk => by
      rw [Nat.zero_add]
      exact hfails k hk
    rwa [Nat.zero_add] at h
  have hsend : ReplayStep fails { actions := script [] (e :: errs), given := ops.length }
      { actions := script [] errs, given := ops.length, fetchReader := .received (some (.fetch e)), sent := true } :=
    .sendErr rfl rfl rfl
  exact (hgiven.tail hsend).tail (@ReplayStep.fetchReturned fails _ (some (.fetch e)) rfl)

theorem stuckState_no_step (errs : List FetchError) (e e' : FetchError) (given : ℕ) (s : ReplayState) :
    ¬ ReplayStep fails (stuckState (e' :: errs) e given) s := by
  intro h
  cases h with
  | send hf hactions ha => cases hactions
  | cancel hf hactions hc => cases hactions
  | sendErr hf hactions hr => cases hr
  | closeData hf hactions => cases hactions
  | closeErrc hf => cases hf
  | applied ha hk => cases ha
  | applyFailed ha hk => cases ha
  | sendApplyErr ha hr => cases ha
  | rangeDone ha hf => exact hf rfl
  | readFetchClosed hr hf => cases hr
  | readApplyClosed hr ha => cases ha
  | fetchReturned hr => cases hr
  | applyReturned hr => cases hr

/-- A replay completes unless its fetcher sends two errors to an applier that does not fail. -/
theorem completes_script_iff :
    ReplayCompletes (script ops errs) fails ↔ errs.length ≤ 1 ∨ ∃ k < ops.length, fails k = true := by
  constructor
  · intro h
    by_contra hcond
    rw [not_or, not_exists] at hcond
    obtain ⟨hlen, hfails⟩ := hcond
    cases errs with
    | nil => simp at hlen
    | cons e errs =>
      cases errs with
      | nil => simp at hlen
      | cons e' errs =>
        have hreach : Reaches (script ops (e :: e' :: errs)) fails (stuckState (e' :: errs) e ops.length) :=
          reaches_stuckState fun k hk => by simpa [hk] using hfails k
        exact not_completes_of_stuck hreach (fun hreturned => nomatch hreturned.2)
          (stuckState_no_step errs e e' ops.length) h
  · intro hcond
    refine ⟨fun s hs hreturned => (ReplayInv.of_reaches hs).exists_step hreturned hcond,
      fun run _ => exists_no_step_of_measure ReplayState.steps (fun _ _ h => h.steps_lt) run, fun s hs hreturned hsent => ?_⟩
    rcases (ReplayInv.of_reaches hs).reports hsent with herr | ⟨e, he⟩ | ⟨e, he⟩
    · exact herr
    · exact nomatch hreturned.1.symm.trans he
    · exact nomatch hreturned.2.symm.trans he

end Deadlock

end WalG.Mongo
