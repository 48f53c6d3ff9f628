import MiniPascal.Proofs.Execution.Progress

/-!
# Independent statements commute

What an assignment writes depends on the store only through the names that it reads
(`Expression.eval_congr`, `Store.Performs.congr`), and writing changes no other name than its own
(`Store.get?_replay`). So a statement runs in the same way in all stores that agree on the names
that it reads, and statements of which neither writes what the other reads or writes may be swapped.
The store behind them is the same, as writes under different names commute
(`Store.replay_comm`). `independent_statements_commute` puts this together.
-/

set_option autoImplicit false
set_option relaxedAutoImplicit false

namespace MiniPascal

/-! ### Stores that agree -/

/-- The stores hold the same, or both nothing, under each of these names. -/
def Store.Agrees (store : Store) (names : List String) (other : Store) : Prop :=
  ∀ name ∈ names, store.get? name = other.get? name

namespace Store.Agrees

variable {store other : Store} {names fewer : List String}

theorem symm (hagrees : store.Agrees names other) : other.Agrees names store :=
  fun name hmem ↦ (hagrees name hmem).symm

theorem mono (hagrees : store.Agrees names other) (hsubset : fewer ⊆ names) :
    store.Agrees fewer other :=
  fun name hmem ↦ hagrees name (hsubset hmem)

theorem insert (hagrees : store.Agrees names other) (name : String) (v : Value) :
    Store.Agrees (store.insert name v) names (other.insert name v) := by
  intro key hmem
  rw [Table.get?_insert, Table.get?_insert, hagrees key hmem]

theorem replay (hagrees : store.Agrees names other) (writes : List Write) :
    (store.replay writes).Agrees names (other.replay writes) := by
  induction writes generalizing store other with
  | nil => exact hagrees
  | cons first others induct => exact induct (hagrees.insert first.name first.value)

end Store.Agrees

/-- Only the variables of an expression decide whether it has a value, and which. -/
theorem Expression.eval_congr {store other : Store} {e : Expression}
    (hagrees : store.Agrees (e.mentions.map (·.name)) other) : e.eval store = e.eval other := by
  induction e with
  | constant value line => rfl
  | read used =>
    rw [eval, eval, hagrees used.name (List.mem_singleton_self _)]
  | unary sign operand line induct =>
    rw [eval, eval, induct hagrees]
  | binary operator left right line inductLeft inductRight =>
    rw [mentions, List.map_append] at hagrees
    rw [eval, eval, inductLeft (hagrees.mono (List.subset_append_left ..)),
      inductRight (hagrees.mono (List.subset_append_right ..))]

/-! ### Writes -/

namespace Store

variable {store other : Store} {writes first second : List Write} {name : String}

theorem get?_replay (hnot : name ∉ writes.map Write.name) :
    (store.replay writes).get? name = store.get? name := by
  induction writes generalizing store with
  | nil => rfl
  | cons write others induct =>
    obtain ⟨hne, hothers⟩ := not_or.1 (mt List.mem_cons.2 hnot)
    change (Store.replay (store.insert write.name write.value) others).get? name = _
    rw [induct hothers, Table.get?_insert, if_neg hne]

theorem agrees_replay {names : List String} (hdisjoint : (writes.map Write.name).Disjoint names) :
    store.Agrees names (store.replay writes) :=
  fun _ hmem ↦ (get?_replay fun hwritten ↦ hdisjoint hwritten hmem).symm

/-- A write may be put behind writes of other names. -/
theorem replay_insert (hnot : name ∉ writes.map Write.name) (v : Value) :
    Store.replay (store.insert name v) writes = (store.replay writes).insert name v := by
  induction writes generalizing store with
  | nil => rfl
  | cons write others induct =>
    obtain ⟨hne, hothers⟩ := not_or.1 (mt List.mem_cons.2 hnot)
    change Store.replay ((store.insert name v).insert write.name write.value) others = _
    rw [Table.insert_comm store hne, induct hothers]
    rfl

theorem replay_comm (hdisjoint : (first.map Write.name).Disjoint (second.map Write.name)) :
    (store.replay first).replay second = (store.replay second).replay first := by
  induction first generalizing store with
  | nil => rfl
  | cons write others induct =>
    obtain ⟨hnot, hothers⟩ := List.disjoint_cons_left.1 hdisjoint
    change (Store.replay (store.insert write.name write.value) others).replay second =
      Store.replay ((store.replay second).insert write.name write.value) others
    rw [induct hothers, replay_insert hnot]

/-- Stores that agree on what is read are written in the same way. -/
theorem Performs.congr {assignments : List Assignment}
    (hperforms : store.Performs assignments writes)
    (hagrees : store.Agrees (readNames assignments) other) : other.Performs assignments writes := by
  induction hperforms generalizing other with
  | nil => exact .nil
  | @cons store first others v writes hvalue _ induct =>
    have hfirst : store.Agrees (first.value.mentions.map (·.name)) other :=
      hagrees.mono (List.subset_append_left ..)
    have hothers : store.Agrees (readNames others) other :=
      hagrees.mono (List.subset_append_right ..)
    exact .cons ((Expression.eval_congr hfirst).symm.trans hvalue) (induct (hothers.insert _ v))

end Store

/-! ### Runs -/

namespace Run

variable {memory later : Memory} {assignments : List Assignment}

theorem exists_performs_of_ok (hok : forM assignments assignment memory = .ok () later) :
    ∃ writes, memory.store.Performs assignments writes ∧ later = memory.written writes := by
  have hends := ends_assignments assignments memory
  rw [hok] at hends
  cases hends with
  | finished hperforms => exact ⟨_, hperforms, rfl⟩

/-- Where the stores agree on what is read, the same is written, and both runs end in the same
way. -/
theorem assignments_congr {other : Memory}
    (hagrees : memory.store.Agrees (readNames assignments) other.store) :
    ∃ writes : List Write, writes.map Write.name ⊆ assignedNames assignments ∧
      ((forM assignments assignment memory = .ok () (memory.written writes) ∧
          forM assignments assignment other = .ok () (other.written writes)) ∨
        ∃ fault, forM assignments assignment memory = .error fault (memory.written writes) ∧
          forM assignments assignment other = .error fault (other.written writes)) := by
  have hends := ends_assignments assignments memory
  generalize forM assignments assignment memory = result at hends ⊢
  cases hends with
  | finished hperforms =>
    refine ⟨_, ?_, .inl ⟨rfl, assignments_of_performs (hperforms.congr hagrees)⟩⟩
    rw [hperforms.names_eq]
    exact List.Subset.refl _
  | @stopped done others failing writes fault hsplit hdone hfault =>
    subst hsplit
    rw [readNames, List.flatMap_append, List.flatMap_cons] at hagrees
    have hreadDone : memory.store.Agrees (readNames done) other.store :=
      hagrees.mono (List.subset_append_left ..)
    have hreadFailing : memory.store.Agrees (failing.value.mentions.map (·.name)) other.store :=
      hagrees.mono (List.subset_append_of_subset_right _ (List.subset_append_left ..))
    rw [Expression.eval_congr (hreadFailing.replay writes)] at hfault
    refine ⟨writes, ?_, .inr ⟨fault, rfl, (Ends.stopped rfl (hdone.congr hreadDone) hfault).run_eq⟩⟩
    rw [hdone.names_eq, assignedNames, assignedNames, List.map_append]
    exact List.subset_append_left ..

/-- However a run ends, it leaves the names alone that it does not assign. -/
theorem get?_of_not_assigned
    (hlater : forM assignments assignment memory = .ok () later ∨
      ∃ fault, forM assignments assignment memory = .error fault later)
    {name : String} (hnot : name ∉ assignedNames assignments) :
    later.store.get? name = memory.store.get? name := by
  obtain ⟨writes, hwrites, hrun⟩ := assignments_congr (fun name _ ↦ rfl :
    memory.store.Agrees (readNames assignments) memory.store)
  have hstore : later = memory.written writes := by
    rcases hrun with ⟨hrun, -⟩ | ⟨fault, hrun, -⟩
    · obtain hlater | ⟨cause, hlater⟩ := hlater
      · exact (EStateM.Result.ok.inj (hlater.symm.trans hrun)).2
      · cases hlater.symm.trans hrun
    · obtain hlater | ⟨cause, hlater⟩ := hlater
      · cases hlater.symm.trans hrun
      · exact (EStateM.Result.error.inj (hlater.symm.trans hrun)).2
  rw [hstore]
  exact Store.get?_replay fun hwritten ↦ hnot (hwrites hwritten)

end Run

/-- Neither statement assigns a name that the other one reads or assigns. -/
structure Statement.Independent (s t : Statement) : Prop where
  assigned : (assignedNames s.assignments).Disjoint (assignedNames t.assignments)
  read : (assignedNames s.assignments).Disjoint (readNames t.assignments)
  readBy : (assignedNames t.assignments).Disjoint (readNames s.assignments)

theorem Statement.Independent.commute {s t : Statement} (hindependent : s.Independent t)
    {memory later : Memory} (hok : (do Run.statement s; Run.statement t) memory = .ok () later) :
    ∃ other, (do Run.statement t; Run.statement s) memory = .ok () other ∧
      other.store = later.store := by
  rw [Run.statement_eq_assignments s, Run.statement_eq_assignments t] at *
  obtain ⟨⟨⟩, between, hs, ht⟩ := ok_of_bind_ok hok
  obtain ⟨first, hfirst, rfl⟩ := Run.exists_performs_of_ok hs
  obtain ⟨second, hsecond, rfl⟩ := Run.exists_performs_of_ok ht
  obtain ⟨hassigned, hread, hreadBy⟩ := hindependent
  rw [← hfirst.names_eq] at hassigned hread
  rw [← hsecond.names_eq] at hassigned hreadBy
  -- Neither statement notices whether the other has run before it.
  have hfront : memory.store.Performs t.assignments second :=
    hsecond.congr (Store.agrees_replay hread).symm
  have hbehind : (memory.written second).store.Performs s.assignments first :=
    hfirst.congr (Store.agrees_replay hreadBy)
  refine ⟨(memory.written second).written first, ?_, (Store.replay_comm hassigned).symm⟩
  rw [bind_of_ok (Run.assignments_of_performs hfront)]
  exact Run.assignments_of_performs hbehind

/-- Statements that are independent run in either order to the same store. Whatever a statement
does, it changes only the names that it assigns, and how it ends and what it writes depends only on
what is held under the names that it reads. -/
theorem independent_statements_commute (s : Statement) (memory : Memory) :
    (∀ t later, s.Independent t →
      (do Run.statement s; Run.statement t) memory = .ok () later →
        ∃ other, (do Run.statement t; Run.statement s) memory = .ok () other ∧
          other.store = later.store) ∧
    (∀ later, (Run.statement s memory = .ok () later ∨
        ∃ fault, Run.statement s memory = .error fault later) →
      ∀ name ∉ assignedNames s.assignments,
        later.store.get? name = memory.store.get? name) ∧
    ∀ other : Memory, memory.store.Agrees (readNames s.assignments) other.store →
      ∃ writes : List Write, writes.map Write.name ⊆ assignedNames s.assignments ∧
        ((Run.statement s memory = .ok () (memory.written writes) ∧
            Run.statement s other = .ok () (other.written writes)) ∨
          ∃ fault, Run.statement s memory = .error fault (memory.written writes) ∧
            Run.statement s other = .error fault (other.written writes)) := by
  refine ⟨fun t later hindependent hok ↦ hindependent.commute hok, ?_, ?_⟩
  · rw [Run.statement_eq_assignments s]
    exact fun later hlater name hnot ↦ Run.get?_of_not_assigned hlater hnot
  · rw [Run.statement_eq_assignments s]
    exact fun other hagrees ↦ Run.assignments_congr hagrees

/-- The name that the second statement writes belongs between those that the first one does. -/
theorem independent_statements_commute_between :
    let read (name : String) : Expression := .read ⟨name, 2⟩
    let assign (name : String) (value : Expression) : Statement := .assign ⟨name, 2⟩ value 2
    let sum (left right : Expression) : Expression := .binary .add left right 2
    let s : Statement := .compound [assign "e" (read "b"),
      .compound [.empty, assign "c" (sum (read "e") (read "b"))]]
    let t : Statement := .compound [assign "d" (sum (read "a") (read "b"))]
    let memory : Memory := ⟨⟨[("a", .integer 1), ("b", .integer 2)]⟩, #[]⟩
    let later : Store := ⟨[("a", .integer 1), ("b", .integer 2), ("c", .integer 4),
      ("d", .integer 3), ("e", .integer 2)]⟩
    let without : Memory := ⟨⟨[("b", .integer 2), ("d", .integer 9)]⟩, #[]⟩
    s.Independent t ∧
      (∃ other, (do Run.statement t; Run.statement s) memory = .ok () other ∧
        other.store = later) ∧
      (∀ after, Run.statement s memory = .ok () after → after.store.get? "a" = some (.integer 1)) ∧
      memory.store.Agrees (readNames s.assignments) without.store ∧
      ∃ writes, Run.statement s memory = .ok () (memory.written writes) ∧
        Run.statement s without = .ok () (without.written writes) := by
  intro read assign sum s t memory later without
  have hindependent : s.Independent t := ⟨List.disjoint_left.2 (by decide),
    List.disjoint_left.2 (by decide), List.disjoint_left.2 (by decide)⟩
  have hagrees : memory.store.Agrees (readNames s.assignments) without.store := by
    unfold Store.Agrees
    decide
  have hfirst : Run.statement s memory =
      .ok () (memory.written [⟨"e", .integer 2⟩, ⟨"c", .integer 4⟩]) := by rfl
  have hboth : (do Run.statement s; Run.statement t) memory = .ok () ⟨later,
      (memory.written [⟨"e", .integer 2⟩, ⟨"c", .integer 4⟩, ⟨"d", .integer 3⟩]).log⟩ := by rfl
  obtain ⟨hcommute, hframe, hsame⟩ := independent_statements_commute s memory
  refine ⟨hindependent, hcommute t _ hindependent hboth, fun after hafter ↦ ?_, hagrees, ?_⟩
  · exact hframe after (.inl hafter) "a" (by decide)
  · obtain ⟨writes, -, hruns | ⟨fault, hfails, -⟩⟩ := hsame without hagrees
    · exact ⟨writes, hruns⟩
    · cases hfirst.symm.trans hfails

end MiniPascal
