import Dissolve.Proofs.Ssa.Rules

/-!
# Proofs.Ssa.Assignment — when values that are read have been assigned

An *execution* goes through a function from its entry. Entering a block along edge number `slot`
assigns its phis, each to operand number `slot`; an instruction that is carried out assigns its
result; and an instruction that may throw can leave the block for any of its handlers, with nothing
assigned and the rest of the block skipped.

The rules of SSA form treat every edge as one that leaves the end of its block, and the phis of a
block as assigned whenever the block is entered. So a function that keeps the rules may still read a
value that nothing has assigned, in two ways only: an exception left the block of the definition
before the definition was carried out, or the value is a phi of the entry block, which no edge leads
to (`unassigned_reads`). In all other cases a value is assigned before it is read
(`supplied_of_verify`).
-/

namespace Dissolve.Ssa

open List

variable {c : BlockId} {v : ValueId} {slot : Nat}

/-- What happens in an execution. -/
inductive Event
  | entered (block : BlockId) (slot : Nat)
  | did (insn : InsnId)
  /-- An instruction throws, and control goes to a handler. -/
  | raised (insn : InsnId)

namespace Function

/-- What has happened, the latest first, the block the execution is in, and the instructions of the
block that are still ahead. -/
inductive Execution (f : Function) : List Event → BlockId → List InsnId → Prop
  | start : Execution f [] f.entry (f.block f.entry).insns
  | perform {past : List Event} {b : BlockId} {i : InsnId} {rest : List InsnId}
      (here : Execution f past b (i :: rest)) (inner : (f.insn i).op.isTerminator = false) :
      Execution f (.did i :: past) b rest
  | jump {past : List Event} {b c : BlockId} {i : InsnId} {rest : List InsnId} {slot : Nat}
      (here : Execution f past b (i :: rest)) (ends : (f.insn i).op.isTerminator = true)
      (target : c ∈ (f.insn i).op.targets) (edge : (f.predecessors c)[slot]? = some b) :
      Execution f (.entered c slot :: .did i :: past) c (f.block c).insns
  | raise {past : List Event} {b : BlockId} {i : InsnId} {rest : List InsnId} {slot : Nat}
      {handler : Handler} (here : Execution f past b (i :: rest))
      (throws : (f.insn i).op.mayThrow = true) (covered : handler ∈ (f.block b).handlers)
      (edge : (f.predecessors handler.target)[slot]? = some b) :
      Execution f (.entered handler.target slot :: .raised i :: past) handler.target
        (f.block handler.target).insns

/-- A value has been assigned: its instruction was carried out, or the block of its phi was entered
along an edge. -/
def Assigned (f : Function) (past : List Event) (v : ValueId) : Prop :=
  (∃ i, .did i ∈ past ∧ (f.insn i).dest = some v) ∨
    ∃ c slot, .entered c slot ∈ past ∧ ∃ p ∈ (f.block c).phis, (f.phi p).value = v

/-- An exception left the block that defines a value at the instruction that defines it or at one
before it. -/
def CutShort (f : Function) (past : List Event) (v : ValueId) : Prop :=
  ∃ b before i after, .raised i ∈ past ∧ (f.block b).insns = before ++ i :: after ∧
    ∃ d ∈ i :: after, (f.insn d).dest = some v

/-- A value has been assigned, unless an exception came before its definition or it is a phi of the
entry. -/
def Supplied (f : Function) (past : List Event) (v : ValueId) : Prop :=
  f.Assigned past v ∨ f.CutShort past v ∨ ∃ p ∈ (f.block f.entry).phis, (f.phi p).value = v

section Past

variable {f : Function} {past : List Event}

lemma Supplied.of_did {i : InsnId} (hi : .did i ∈ past) (hd : (f.insn i).dest = some v) :
    f.Supplied past v :=
  .inl (.inl ⟨i, hi, hd⟩)

lemma Supplied.cons (h : f.Supplied past v) (event : Event) : f.Supplied (event :: past) v := by
  rcases h with (⟨i, hi, hd⟩ | ⟨c, slot, hc, hp⟩) | ⟨b, before, i, after, hi, hlist, hd⟩ | hentry
  · exact .of_did (mem_cons_of_mem _ hi) hd
  · exact .inl (.inr ⟨c, slot, mem_cons_of_mem _ hc, hp⟩)
  · exact .inr (.inl ⟨b, before, i, after, mem_cons_of_mem _ hi, hlist, hd⟩)
  · exact .inr (.inr hentry)

end Past

/-! ## The way of an execution -/

/-- An execution has come along a route. What the blocks behind it define is supplied, and so are
the phis of the block it is in; the instructions that are no longer ahead were carried out. -/
structure Traced (f : Function) (past : List Event) (b : BlockId) (rest : List InsnId)
    (t : List BlockId) (done : List InsnId) : Prop where
  route : f.Route (b :: t)
  behind : ∀ c ∈ t, ∀ v, f.DefinedIn v c → f.Supplied past v
  phis : ∀ p ∈ (f.block b).phis, f.Supplied past (f.phi p).value
  insns : (f.block b).insns = done ++ rest
  carried_out : ∀ i ∈ done, .did i ∈ past

namespace Traced

variable {f : Function} {past : List Event} {b : BlockId} {i : InsnId} {rest done : List InsnId}
  {t : List BlockId}

lemma start (f : Function) : f.Traced [] f.entry (f.block f.entry).insns [] [] where
  route := .start
  behind := nofun
  phis p hp := .inr (.inr ⟨p, hp, rfl⟩)
  insns := rfl
  carried_out := nofun

lemma perform (h : f.Traced past b (i :: rest) t done) :
    f.Traced (.did i :: past) b rest t (done ++ [i]) where
  route := h.route
  behind c hc v hv := (h.behind c hc v hv).cons _
  phis p hp := (h.phis p hp).cons _
  insns := by simpa using h.insns
  carried_out j hj := by
    rcases mem_append.1 hj with hj | hj
    · exact mem_cons_of_mem _ (h.carried_out j hj)
    · rw [mem_singleton.1 hj]
      exact mem_cons_self

lemma supplied_at_end (hf : f.Framed) (h : f.Traced past b (i :: rest) t done)
    (ends : (f.insn i).op.isTerminator) (hc : c ∈ b :: t)
    (hv : f.DefinedIn v c) : f.Supplied (.did i :: past) v := by
  rcases mem_cons.1 hc with rfl | hc
  · rcases hv with ⟨j, hj, hd⟩ | ⟨p, hp, rfl⟩
    · have hlast := (hf.terminated _ (hf.live_of_route h.route)).eq_nil h.insns ends
      rw [h.insns, hlast] at hj
      rcases mem_append.1 hj with hj | hj
      · exact .of_did (mem_cons_of_mem _ (h.carried_out j hj)) hd
      · rw [mem_singleton.1 hj] at hd
        exact .of_did mem_cons_self hd
    · exact (h.phis p hp).cons _
  · exact (h.behind c hc v hv).cons _

lemma supplied_at_raise (h : f.Traced past b (i :: rest) t done) (hc : c ∈ b :: t)
    (hv : f.DefinedIn v c) : f.Supplied (.raised i :: past) v := by
  rcases mem_cons.1 hc with rfl | hc
  · rcases hv with ⟨j, hj, hd⟩ | ⟨p, hp, rfl⟩
    · rw [h.insns] at hj
      rcases mem_append.1 hj with hj | hj
      · exact .of_did (mem_cons_of_mem _ (h.carried_out j hj)) hd
      · exact .inr (.inl ⟨c, done, i, rest, mem_cons_self, h.insns, j, hj, hd⟩)
    · exact (h.phis p hp).cons _
  · exact (h.behind c hc v hv).cons _

lemma enter (hroute : f.Route (c :: t))
    (hbehind : ∀ x ∈ t, ∀ v, f.DefinedIn v x → f.Supplied past v) :
    f.Traced (.entered c slot :: past) c (f.block c).insns t [] where
  route := hroute
  behind x hx v hv := (hbehind x hx v hv).cons _
  phis p hp := .inl (.inr ⟨c, slot, mem_cons_self, p, hp, rfl⟩)
  insns := rfl
  carried_out := nofun

end Traced

section Executions

variable {f : Function} {past : List Event} {b : BlockId} {i : InsnId} {rest : List InsnId}

/-- Every execution of a function with ordered blocks and edges is traced. -/
lemma Execution.traced (hf : f.Framed) (h : f.Execution past b rest) :
    ∃ t done, f.Traced past b rest t done := by
  induction h with
  | start => exact ⟨[], [], .start f⟩
  | perform _ _ ih =>
    obtain ⟨t, done, htraced⟩ := ih
    exact ⟨t, _, htraced.perform⟩
  | @jump past b c i rest slot _ ends target _ ih =>
    obtain ⟨t, done, htraced⟩ := ih
    have hlast := (hf.terminated _ (hf.live_of_route htraced.route)).eq_nil htraced.insns ends
    have hedge : c ∈ f.successors b := by
      rw [successors, normalSuccessors_of_last (hlast ▸ htraced.insns) ends]
      exact mem_append_left _ target
    exact ⟨b :: t, [], .enter (.step htraced.route hedge)
      fun x hx v hv => htraced.supplied_at_end hf ends hx hv⟩
  | @raise past b i rest slot handler _ _ covered _ ih =>
    obtain ⟨t, done, htraced⟩ := ih
    have hedge : handler.target ∈ f.successors b := mem_append_right _ (mem_map_of_mem covered)
    exact ⟨b :: t, [], .enter (.step htraced.route hedge)
      fun x hx v hv => htraced.supplied_at_raise hx hv⟩

lemma Preceded.supplied_insn (hf : f.Framed) (h : f.Preceded)
    (hrun : f.Execution past b (i :: rest)) (hv : v ∈ (f.insn i).op.operands) :
    f.Supplied past v := by
  obtain ⟨t, done, htraced⟩ := hrun.traced hf
  have hlive := hf.live_of_route htraced.route
  rcases h.insn_uses b hlive done i rest htraced.insns v hv t htraced.route with
    ⟨j, hj, hd⟩ | ⟨p, hp, rfl⟩ | ⟨c, hc, hdef⟩
  · exact .of_did (htraced.carried_out j hj) hd
  · exact htraced.phis p hp
  · exact htraced.behind c hc v hdef

lemma Preceded.supplied_phi (hf : f.Framed) (h : f.Preceded)
    (hrun : f.Execution (.entered c slot :: past) c rest) {p : PhiId} (hp : p ∈ (f.block c).phis)
    (hv : (f.phi p).operands[slot]? = some v) : f.Supplied past v := by
  -- the value is defined on the way to the end of the predecessor, wherever that was left
  have huse : ∀ {b t}, f.Route (b :: t) → (f.predecessors c)[slot]? = some b →
      c ∈ f.successors b → ∃ x ∈ b :: t, f.DefinedIn v x := by
    intro b t hroute hpred hedge
    have hlive := hf.targets b (hf.live_of_route hroute) c hedge
    exact h.phi_uses c hlive p hp slot v b hv hpred t hroute
  cases hrun with
  | @jump past b _ i rest _ here ends target edge =>
    obtain ⟨t, done, htraced⟩ := here.traced hf
    have hlast := (hf.terminated _ (hf.live_of_route htraced.route)).eq_nil htraced.insns ends
    obtain ⟨x, hx, hdef⟩ := huse htraced.route edge (by
      rw [successors, normalSuccessors_of_last (hlast ▸ htraced.insns) ends]
      exact mem_append_left _ target)
    exact htraced.supplied_at_end hf ends hx hdef
  | @raise past b i rest _ handler here _ covered edge =>
    obtain ⟨t, done, htraced⟩ := here.traced hf
    obtain ⟨x, hx, hdef⟩ := huse htraced.route edge (mem_append_right _ (mem_map_of_mem covered))
    exact htraced.supplied_at_raise hx hdef

end Executions

/-- In an execution of a function that passes the check, a value that an instruction reads or a phi
takes has been assigned before, unless an exception left the block of its definition too early or it
is a phi of the entry. -/
theorem supplied_of_verify {f : Function} (hexact : f.Exact) (hverify : verify f = .ok ()) :
    (∀ past b i rest, f.Execution past b (i :: rest) → ∀ v ∈ (f.insn i).op.operands,
      f.Supplied past v) ∧
    ∀ past c slot rest, f.Execution (.entered c slot :: past) c rest → ∀ p ∈ (f.block c).phis,
      ∀ v, (f.phi p).operands[slot]? = some v → f.Supplied past v := by
  have hframed := hexact.framed_of_verify hverify
  have hprec := hframed.preceded_iff.2 (hframed.verify_iff_rest.1 hverify)
  exact ⟨fun _ _ _ _ hrun _ hv => hprec.supplied_insn hframed hrun hv,
    fun _ _ _ _ hrun _ hp _ hv => hprec.supplied_phi hframed hrun hp hv⟩

/-! ## Reads of what nothing assigned -/

/-- A call whose value is returned, also by the handler of the call. -/
def handlerReads : Function where
  method := default
  isStatic := true
  values := #[{ ty := .int, definition := some (.insn ⟨0⟩), users := [.insn ⟨1⟩, .insn ⟨2⟩] }]
  insns := #[⟨.invoke .static default [], some ⟨0⟩, ⟨0⟩, .lifted 0, false⟩,
    ⟨.ret (some ⟨0⟩), none, ⟨0⟩, .lifted 1, false⟩, ⟨.ret (some ⟨0⟩), none, ⟨1⟩, .lifted 2, false⟩]
  blocks := #[
    { insns := [⟨0⟩, ⟨1⟩], handlers := [⟨none, ⟨1⟩⟩] },
    { insns := [⟨2⟩], preds := [⟨0⟩] }]

/-- A function that returns a phi of its entry. -/
def entryPhi : Function where
  method := default
  isStatic := true
  values := #[{ ty := .int, definition := some (.phi ⟨0⟩), users := [.insn ⟨0⟩] }]
  insns := #[⟨.ret (some ⟨0⟩), none, ⟨0⟩, .lifted 0, false⟩]
  phis := #[⟨⟨0⟩, ⟨0⟩, [], false⟩]
  blocks := #[{ phis := [⟨0⟩], insns := [⟨0⟩] }]

/-- In the handler the value of the call is read although the call threw. -/
lemma handlerReads_raised : handlerReads.Execution [.entered ⟨1⟩ 0, .raised ⟨0⟩] ⟨1⟩ [⟨2⟩] := by
  have hstart : handlerReads.Execution [] ⟨0⟩ [⟨0⟩, ⟨1⟩] := .start
  have hcovered : (⟨none, ⟨1⟩⟩ : Handler) ∈ (handlerReads.block ⟨0⟩).handlers := by decide
  exact .raise hstart (by decide) hcovered (by decide)

/-- Functions that pass the check and read a value that nothing has assigned. -/
theorem unassigned_reads :
    (handlerReads.Exact ∧ verify handlerReads = .ok () ∧ ∃ past b i rest v,
      handlerReads.Execution past b (i :: rest) ∧ v ∈ (handlerReads.insn i).op.operands ∧
        ¬handlerReads.Assigned past v) ∧
    (entryPhi.Exact ∧ verify entryPhi = .ok () ∧ ∃ past b i rest v,
      entryPhi.Execution past b (i :: rest) ∧ v ∈ (entryPhi.insn i).op.operands ∧
        ¬entryPhi.Assigned past v) := by
  refine ⟨⟨by decide, rfl, _, ⟨1⟩, ⟨2⟩, [], ⟨0⟩, handlerReads_raised, by decide, ?_⟩,
    ⟨by decide, rfl, _, ⟨0⟩, ⟨0⟩, [], ⟨0⟩, .start, by decide, ?_⟩⟩
  · rintro (⟨i, hi, -⟩ | ⟨c, slot, hc, p, hp, -⟩)
    · simp at hi
    · obtain ⟨rfl, -⟩ : c = ⟨1⟩ ∧ slot = 0 := by simpa using hc
      cases hp
  · rintro (⟨i, hi, -⟩ | ⟨c, slot, hc, -⟩)
    · cases hi
    · cases hc

theorem handlerReads_supplied : handlerReads.Supplied [.entered ⟨1⟩ 0, .raised ⟨0⟩] ⟨0⟩ :=
  (supplied_of_verify (f := handlerReads) (by decide) rfl).1 _ _ _ _ handlerReads_raised ⟨0⟩
    (by decide)

end Function

end Dissolve.Ssa
