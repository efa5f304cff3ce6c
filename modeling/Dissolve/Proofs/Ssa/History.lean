import Dissolve.Proofs.Ssa.Unreachable
import Dissolve.Proofs.Ssa.Renumber

/-!
# Proofs.Ssa.History — the bookkeeping of a function after any history of edits

A `Mutation` is one edit of a function with its arguments. What it needs (`Mutation.Admissible`) is
what the edits take for granted: blocks that are live, values that exist, and a value of its own for a
new instruction. A history starts with the empty function of a method and takes admissible mutations one
after another; a mutation that is refused leaves behind what it had done.

Every mutation keeps a function orderly (`Mutation.orderly_apply`), so after every history definitions,
users and the lists of the blocks are exact (`Mutation.bookkeeping_of_history`).
-/

namespace Dissolve.Ssa

open List Edit EStateM

variable {α : Type} {f g : Function} {e : Edit α} {a : α}

def Edit.after {α : Type} (e : Edit α) (f : Function) : Function :=
  match e.run f with
  | .ok _ g => g
  | .error _ g => g

lemma Edit.after_ok (h : e.run f = .ok a g) : e.after f = g := by
  rw [Edit.after, h]

lemma Edit.after_error {error : Error} (h : e.run f = .error error g) : e.after f = g := by
  rw [Edit.after, h]

def Edit.answer? {α : Type} (e : Edit α) (f : Function) : Option α :=
  match e.run f with
  | .ok a _ => some a
  | .error _ _ => none

lemma Edit.ok_of_answer? (h : e.answer? f = some a) : ∃ g, e.run f = .ok a g := by
  unfold Edit.answer? at h
  cases hrun : e.run f with
  | ok b g =>
    rw [hrun] at h
    exact ⟨g, by rw [Option.some.inj h]⟩
  | error error g =>
    rw [hrun] at h
    cases h

/-- One edit of a function. -/
inductive Mutation where
  | addBlock
  | addValue (ty : ValueType)
  | setDebugName (v : ValueId) (name : String)
  | appendInsn (b : BlockId) (op : Op) (dest : Option ValueId) (position : Position)
  | appendValue (b : BlockId) (op : Op) (ty : ValueType) (position : Position)
  | insertInsn (b : BlockId) (index : Nat) (op : Op) (dest : Option ValueId) (position : Position)
  | insertBefore (anchor : InsnId) (op : Op) (dest : Option ValueId)
  | replaceOp (i : InsnId) (op : Op)
  | addHandler (b : BlockId) (handler : Handler)
  | addPredecessor (b pred : BlockId)
  | replacePredecessor (b old new : BlockId)
  | removePredecessorAt (b : BlockId) (index : Nat)
  | retarget (b source target : BlockId)
  | insertPhi (b : BlockId) (ty : ValueType)
  | setPhiOperands (p : PhiId) (operands : List ValueId)
  | removePhi (p : PhiId)
  | replaceAllUses (old new : ValueId)
  | removeInsn (i : InsnId)
  | splitBlock (b : BlockId) (index : Nat)
  | absorbBlock (into source : BlockId)
  | removeBlock (b : BlockId)
  | removeUnreachableBlocks
  | rebuildDefUse
  | compact

namespace Mutation

def apply (f : Function) : Mutation → Function
  | addBlock => f.addBlock.2
  | addValue ty => (f.addValue ty).2
  | setDebugName v name => f.setDebugName v name
  | appendInsn b op dest position => (f.appendInsn b op dest position).2
  | appendValue b op ty position => (f.appendValue b op ty position).2
  | insertInsn b index op dest position => (f.insertInsn b index op dest position).2
  | insertBefore anchor op dest => (Ssa.insertBefore anchor op dest).after f
  | replaceOp i op => f.replaceOp i op
  | addHandler b handler => f.addHandler b handler
  | addPredecessor b pred => f.addPredecessor b pred
  | replacePredecessor b old new => (f.replacePredecessor b old new).2
  | removePredecessorAt b index => (Ssa.removePredecessorAt b index).after f
  | retarget b source target => (f.retarget b source target).2
  | insertPhi b ty => (f.insertPhi b ty).2
  | setPhiOperands p operands => f.setPhiOperands p operands
  | removePhi p => (Ssa.removePhi p).after f
  | replaceAllUses old new => (f.replaceAllUses old new).2
  | removeInsn i => (Ssa.removeInsn i).after f
  | splitBlock b index => (Ssa.splitBlock b index).after f
  | absorbBlock into source => (Ssa.absorbBlock into source).after f
  | removeBlock b => (Ssa.removeBlock b).after f
  | removeUnreachableBlocks => f.removeUnreachableBlocks.2
  | rebuildDefUse => f.rebuildDefUse
  | compact => Ssa.compact.after f

/-- What a mutation takes for granted. -/
def Admissible (f : Function) : Mutation → Prop
  | appendInsn b op dest _ => (f.block b).removed = false ∧ f.Placeable op dest
  | appendValue b op _ _ => (f.block b).removed = false ∧ f.Placeable op none
  | insertInsn b _ op dest _ => (f.block b).removed = false ∧ f.Placeable op dest
  | insertBefore _ op dest => f.Placeable op dest
  | replaceOp i op => (f.insn i).removed = false ∧ ∀ v ∈ op.operands, v.index < f.values.size
  | addHandler b _ => (f.block b).removed = false
  | addPredecessor b _ => (f.block b).removed = false
  | insertPhi b _ => (f.block b).removed = false
  | setPhiOperands p operands =>
    (f.phi p).removed = false ∧ ∀ v ∈ operands, v.index < f.values.size
  | replaceAllUses _ new => new.index < f.values.size
  | splitBlock b _ => (f.block b).removed = false
  | absorbBlock into source => source ≠ into ∧ (f.block into).removed = false
  | _ => True

instance (f : Function) : (m : Mutation) → Decidable (m.Admissible f)
  | addBlock | addValue _ | setDebugName _ _ | replacePredecessor _ _ _ | removePredecessorAt _ _
  | retarget _ _ _ | removePhi _ | removeInsn _ | removeBlock _ | removeUnreachableBlocks
  | rebuildDefUse | compact => inferInstanceAs (Decidable True)
  | appendInsn _ _ _ _ | appendValue _ _ _ _ | insertInsn _ _ _ _ _ | replaceOp _ _
  | setPhiOperands _ _ | absorbBlock _ _ => inferInstanceAs (Decidable (_ ∧ _))
  | insertBefore _ op dest => inferInstanceAs (Decidable (f.Placeable op dest))
  | addHandler _ _ | addPredecessor _ _ | insertPhi _ _ | splitBlock _ _ =>
    inferInstanceAs (Decidable (_ = _))
  | replaceAllUses _ _ => inferInstanceAs (Decidable (_ < _))

def AllAdmissible (f : Function) : List Mutation → Prop
  | [] => True
  | m :: ms => m.Admissible f ∧ AllAdmissible (m.apply f) ms

instance decidableAllAdmissible (f : Function) : (ms : List Mutation) → Decidable (AllAdmissible f ms)
  | [] => inferInstanceAs (Decidable True)
  | m :: ms =>
    haveI := decidableAllAdmissible (m.apply f) ms
    inferInstanceAs (Decidable (_ ∧ _))

def replay (f : Function) (ms : List Mutation) : Function :=
  ms.foldl apply f

end Mutation

namespace Function

/-! ## Edits that can be refused -/

section

variable (h : f.Orderly)
include h

lemma Orderly.insertBefore (anchor : InsnId) {op : Op} {dest : Option ValueId}
    (hplace : f.Placeable op dest) : ((Ssa.insertBefore anchor op dest).after f).Orderly := by
  cases hpos : f.positionInBlock? anchor with
  | none =>
    have hrun : (Ssa.insertBefore anchor op dest).run f =
        .error (.malformed (.insertBeforeRemoved anchor)) f := by
      rw [Ssa.insertBefore, run_bind_ok (run_get f), hpos]
      rfl
    rw [after_error hrun]
    exact h
  | some n =>
    have hlive : f.LiveInsn anchor := by
      by_contra hgone
      simp [positionInBlock?, hgone] at hpos
    have hrun : (Ssa.insertBefore anchor op dest).run f =
        .ok ⟨f.insns.size⟩ (f.insertInsn (f.insn anchor).block n op dest
          (.derived (f.insn anchor).position.offset)).2 := by
      rw [Ssa.insertBefore, run_bind_ok (run_get f), hpos]
      rfl
    rw [after_ok hrun]
    exact h.insertInsn n _ (h.live_block_of_insn hlive) hplace

lemma Orderly.removePredecessorAt (b : BlockId) (n : Nat) :
    ((Ssa.removePredecessorAt b n).after f).Orderly := by
  by_cases hn : n < (f.predecessors b).length
  · have hrun : (Ssa.removePredecessorAt b n).run f = .ok () (f.dropPredecessor b n) := by
      rw [Ssa.removePredecessorAt, run_bind_ok (run_get f)]
      simp only [hn, if_true]
      rfl
    rw [after_ok hrun]
    exact h.dropPredecessor b n
  · have hrun : (Ssa.removePredecessorAt b n).run f =
        .error (.malformed (.noPredecessor b n (f.predecessors b).length)) f := by
      rw [Ssa.removePredecessorAt, run_bind_ok (run_get f)]
      simp only [hn, if_false]
      rfl
    rw [after_error hrun]
    exact h

lemma Orderly.withoutPhi {p : PhiId} (hp : f.LivePhi p)
    (hunread : ∀ s ∈ (f.value (f.phi p).value).users, s = .phi p) : (f.withoutPhi p).Orderly := by
  refine ⟨h.exact.withoutPhi hp hunread, fun b hb => ?_⟩
  rw [h.exact.block_withoutPhi] at hb ⊢
  rw [h.gone b hb]
  rfl

lemma Orderly.removePhi (p : PhiId) : ((Ssa.removePhi p).after f).Orderly := by
  by_cases hp : (f.phi p).removed = true
  · rw [after_ok (removePhi_run_removed hp)]
    exact h
  · have hlive : f.LivePhi p := by simpa using hp
    by_cases hunread : ∀ s ∈ (f.value (f.phi p).value).users, s = .phi p
    · rw [after_ok (removePhi_run hlive hunread)]
      exact h.withoutPhi hlive hunread
    · have hforeign : ((f.value (f.phi p).value).users.filter fun user => user ≠ .phi p).length > 0 := by
        push Not at hunread
        obtain ⟨s, hs, hne⟩ := hunread
        exact length_pos_of_mem (mem_filter.2 ⟨hs, by simpa using hne⟩)
      have hrun : ∃ e, (Ssa.removePhi p).run f = .error e f := by
        rw [Ssa.removePhi, run_bind_ok (run_get f)]
        simp only [hlive, Bool.false_eq_true, if_false, hforeign, if_true]
        exact ⟨_, rfl⟩
      obtain ⟨e, hrun⟩ := hrun
      rw [after_error hrun]
      exact h

lemma Orderly.removeInsn (i : InsnId) : ((Ssa.removeInsn i).after f).Orderly := by
  by_cases hi : (f.insn i).removed = true
  · rw [after_ok (removeInsn_removed hi)]
    exact h
  · have hlive : f.LiveInsn i := by simpa using hi
    rcases removeInsn_cases hlive with ⟨hok, -⟩ | ⟨e, herror⟩
    · rw [after_ok hok]
      exact h.withoutInsn hlive
    · rw [after_error herror]
      exact h

lemma Orderly.splitBlock {b : BlockId} (n : Nat) (hb : f.LiveBlock b) :
    ((Ssa.splitBlock b n).after f).Orderly := by
  by_cases hplain : (f.block b).handlers = []
  · rw [after_ok (splitBlock_plain hplain n)]
    exact h.splitAt n (f.lt_blocks_of_live hb)
  · rw [after_error (splitBlock_covered hplain n)]
    exact h

lemma Orderly.absorbBlock {into source : BlockId} (hne : source ≠ into)
    (hinto : f.LiveBlock into) : ((Ssa.absorbBlock into source).after f).Orderly := by
  by_cases hphis : (f.block source).phis = []
  · rw [after_ok (absorbBlock_run hphis)]
    exact h.absorb hne hinto hphis
  · rw [after_error (absorbBlock_refused hphis)]
    exact h

lemma Orderly.removeBlock (b : BlockId) : ((Ssa.removeBlock b).after f).Orderly := by
  by_cases hempty : (f.block b).insns = [] ∧ (f.block b).phis = [] ∧ (f.block b).preds = []
  · obtain ⟨hinsns, hphis, hpreds⟩ := hempty
    have hrun : (Ssa.removeBlock b).run f = .ok () (f.modifyBlock b fun _ => .gone) := by
      rw [Ssa.removeBlock, run_bind_ok (run_get f)]
      simp only [hinsns, hphis, hpreds, isEmpty_nil, Bool.and_self, if_true]
      rfl
    rw [after_ok hrun]
    refine ⟨h.exact.congr (fun _ => rfl) (fun _ => rfl) (fun c => ?_) (fun c => ?_) (fun _ => rfl)
      (fun _ => rfl), fun c hc => ?_⟩
    · rw [block_modifyBlock]
      split
      · rename_i hand
        rw [← hand.1, hinsns]
        rfl
      · rfl
    · rw [block_modifyBlock]
      split
      · rename_i hand
        rw [← hand.1, hphis]
        rfl
      · rfl
    · rw [block_modifyBlock] at hc ⊢
      split
      · rfl
      · rename_i hnot
        rw [if_neg hnot] at hc
        exact h.gone c hc
  · have hrun : (Ssa.removeBlock b).run f = .error (.malformed (.removeNonEmpty b)) f := by
      rw [Ssa.removeBlock, run_bind_ok (run_get f)]
      have hfull : ((f.block b).insns.isEmpty && (f.block b).phis.isEmpty &&
          (f.block b).preds.isEmpty) = false := by
        rw [Bool.eq_false_iff]
        intro htrue
        simp only [Bool.and_eq_true, List.isEmpty_iff, and_assoc] at htrue
        exact hempty htrue
      simp only [hfull, Bool.false_eq_true, if_false]
      rfl
    rw [after_error hrun]
    exact h

lemma Orderly.compact : (Ssa.compact.after f).Orderly := by
  have hrebuilt := h.rebuildDefUse
  by_cases hentry : f.rebuildDefUse.entry ∈ f.rebuildDefUse.blockIds
  · cases hundefined : f.rebuildDefUse.usedUndefined? with
    | some v =>
      have hrun : Ssa.compact.run f =
          .error (.malformed (.usedUndefined v f.rebuildDefUse.method)) f.rebuildDefUse := by
        rw [Ssa.compact, run_bind_ok (run_modify _ f),
          run_bind_ok (run_get _), hundefined, if_neg (by simpa using hentry)]
        rfl
      rw [after_error hrun]
      exact hrebuilt
    | none =>
      have hrun : Ssa.compact.run f = .ok ()
          (f.rebuildDefUse.renumber f.rebuildDefUse.renumbering).rebuildDefUse := by
        rw [Ssa.compact, run_bind_ok (run_modify _ f),
          run_bind_ok (run_get _), hundefined, if_neg (by simpa using hentry)]
        rfl
      rw [after_ok hrun]
      refine hrebuilt.renumber fun v s hread => ?_
      rw [usedUndefined?, find?_eq_none] at hundefined
      have hmem := (hrebuilt.exact.users_iff v s).2 hread
      have hv := hundefined v (mem_map.2 ⟨v.index,
        mem_range.2 (lt_values_of_mem_users _ hmem), rfl⟩)
      by_contra hnone
      rw [Bool.not_eq_true, Option.isSome_eq_false_iff] at hnone
      rw [hnone, Bool.true_and, Bool.not_eq_true, Bool.not_eq_false', Value.isUnused,
        List.isEmpty_iff] at hv
      rw [hv] at hmem
      exact not_mem_nil hmem
  · have hrun : Ssa.compact.run f =
        .error (.malformed (.entryRemoved f.rebuildDefUse.method)) f.rebuildDefUse := by
      rw [Ssa.compact, run_bind_ok (run_modify _ f),
        run_bind_ok (run_get _), if_pos (by simpa using hentry)]
      rfl
    rw [after_error hrun]
    exact hrebuilt

end

end Function

/-! ## Histories -/

namespace Mutation

theorem orderly_apply {m : Mutation} (h : f.Orderly) (hm : m.Admissible f) :
    (m.apply f).Orderly := by
  cases m with
  | addBlock => exact h.addBlock
  | addValue ty => exact h.addValue ty
  | setDebugName v name => exact ⟨h.exact.setDebugName v name, h.gone⟩
  | appendInsn b op dest position => exact h.appendInsn position hm.1 hm.2
  | appendValue b op ty position => exact h.appendValue ty position hm.1 hm.2
  | insertInsn b index op dest position => exact h.insertInsn index position hm.1 hm.2
  | insertBefore anchor op dest => exact h.insertBefore anchor hm
  | replaceOp i op => exact ⟨h.exact.replaceOp hm.1 hm.2, by simpa [apply] using h.gone⟩
  | addHandler b handler | addPredecessor b pred =>
    exact h.modifyBlock (fun _ => rfl) (fun _ => rfl) (fun _ => rfl) (.inl hm)
  | replacePredecessor b old new =>
    exact h.modifyBlock (fun _ => rfl) (fun _ => rfl) (fun _ => rfl) (.inr rfl)
  | removePredecessorAt b index => exact h.removePredecessorAt b index
  | retarget b source target => exact h.retarget b source target
  | insertPhi b ty => exact h.insertPhi ty hm
  | setPhiOperands p operands =>
    exact ⟨h.exact.setPhiOperands hm.2 (.inr hm.1), by simpa [apply] using h.gone⟩
  | removePhi p => exact h.removePhi p
  | replaceAllUses old new => exact ⟨h.exact.replaceAllUses old hm, by simpa [apply] using h.gone⟩
  | removeInsn i => exact h.removeInsn i
  | splitBlock b index => exact h.splitBlock index hm
  | absorbBlock into source => exact h.absorbBlock hm.1 hm.2
  | removeBlock b => exact h.removeBlock b
  | removeUnreachableBlocks => exact h.removeUnreachableBlocks
  | rebuildDefUse => exact h.rebuildDefUse
  | compact => exact h.compact

lemma orderly_replay {ms : List Mutation} (h : f.Orderly)
    (hms : AllAdmissible f ms) : (replay f ms).Orderly := by
  induction ms generalizing f with
  | nil => exact h
  | cons m ms ih => exact ih (orderly_apply h hms.1) hms.2

/-- After every history of admissible mutations, refused ones included: a value has each of its users
once, and they are the live places that read it; its definition is the live place that defines it; and
a live instruction or phi is listed once, by the live block it belongs to, a removed one by none. -/
theorem bookkeeping_of_history {method : MethodRef} {isStatic : Bool} {ms : List Mutation}
    {f : Function} (hms : AllAdmissible (Function.empty method isStatic) ms)
    (hf : f = replay (Function.empty method isStatic) ms) :
    (∀ v, (f.value v).users.Nodup ∧ ∀ s, s ∈ (f.value v).users ↔ f.LiveSite s ∧ f.Reads v s) ∧
      (∀ v s, (f.value v).definition = some s ↔ f.LiveSite s ∧ f.Defines v s) ∧
      (∀ i, (f.insn i).removed = false → (f.block (f.insn i).block).removed = false) ∧
      (∀ p, (f.phi p).removed = false → (f.block (f.phi p).block).removed = false) ∧
      (∀ b i, (f.block b).insns.count i =
        if (f.insn i).removed = false ∧ (f.insn i).block = b then 1 else 0) ∧
      ∀ b p, (f.block b).phis.count p =
        if (f.phi p).removed = false ∧ (f.phi p).block = b then 1 else 0 := by
  have horderly : f.Orderly := hf ▸ orderly_replay (Function.Orderly.empty method isStatic) hms
  have hexact := horderly.exact
  refine ⟨fun v => ⟨hexact.users_nodup v, fun s => ?_⟩, fun v s => ?_,
    fun i => horderly.live_block_of_insn, fun p => horderly.live_block_of_phi, fun b i => ?_,
    fun b p => ?_⟩
  · rw [hexact.users_iff]
    exact ⟨fun hread => ⟨hexact.live_of_reads hread, hread⟩, fun hand => hand.2⟩
  · rw [hexact.definition_iff]
    exact ⟨fun hdef => ⟨hexact.live_of_defines hdef, hdef⟩, fun hand => hand.2⟩
  · rw [(hexact.insns_nodup b).count]
    simp only [hexact.insns_iff]
  · rw [(hexact.phis_nodup b).count]
    simp only [hexact.phis_iff]

/-- A loop whose phi reads itself, with a refused removal, an edge taken back, a block that nothing
reaches, a split and a renumbering. -/
def loopHistory : List Mutation :=
  [.addBlock, .addBlock, .addBlock, .appendValue ⟨0⟩ (.const (.int 7)) .int (.lifted 0),
    .appendInsn ⟨0⟩ (.goto ⟨1⟩) none (.lifted 1), .addPredecessor ⟨1⟩ ⟨0⟩, .addPredecessor ⟨1⟩ ⟨2⟩,
    .addPredecessor ⟨1⟩ ⟨1⟩, .insertPhi ⟨1⟩ .int, .setPhiOperands ⟨0⟩ [⟨0⟩, ⟨0⟩, ⟨1⟩],
    .appendValue ⟨1⟩ (.binary .add .int ⟨1⟩ ⟨1⟩) .int (.lifted 2),
    .appendInsn ⟨1⟩ (.branch .ne ⟨2⟩ none ⟨1⟩ ⟨1⟩) none (.lifted 3), .removePhi ⟨0⟩,
    .appendInsn ⟨2⟩ (.goto ⟨1⟩) none (.lifted 4), .removePredecessorAt ⟨1⟩ 5,
    .removeUnreachableBlocks, .splitBlock ⟨1⟩ 1, .compact]

theorem loopHistory_bookkeeping :
    AllAdmissible (Function.empty default true) loopHistory ∧
      ((replay (Function.empty default true) loopHistory).value ⟨1⟩).users = [.insn ⟨2⟩, .phi ⟨0⟩] ∧
      ((replay (Function.empty default true) loopHistory).value ⟨1⟩).users.Nodup := by
  have hms : AllAdmissible (Function.empty default true) loopHistory := by decide
  exact ⟨hms, by decide +kernel, ((bookkeeping_of_history hms rfl).1 ⟨1⟩).1⟩

end Mutation

end Dissolve.Ssa
