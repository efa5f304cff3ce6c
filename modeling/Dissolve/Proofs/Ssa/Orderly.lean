import Dissolve.Proofs.Ssa.Cleanup

/-!
# Proofs.Ssa.Orderly — edits that add or replace

Adding blocks, values, instructions and phis, and giving instructions other operations or phis other
operands, keeps a function orderly.
-/

namespace Dissolve.Ssa.Function

variable {f : Function} {b : BlockId} {op : Op} {dest : Option ValueId}

lemma Orderly.modifyBlock (h : f.Orderly) {k : Block → Block}
    (hi : ∀ block, (k block).insns = block.insns) (hp : ∀ block, (k block).phis = block.phis)
    (hr : ∀ block, (k block).removed = block.removed)
    (hgone : f.LiveBlock b ∨ k Block.gone = Block.gone) : (f.modifyBlock b k).Orderly := by
  refine ⟨h.exact.modifyBlock b hi hp, fun c hc => ?_⟩
  rw [block_modifyBlock] at hc ⊢
  split
  · rename_i hbc
    rw [if_pos hbc, hr] at hc
    rw [h.gone c hc]
    exact hgone.resolve_left (by simp [hbc.1, hc])
  · rename_i hbc
    rw [if_neg hbc] at hc
    exact h.gone c hc

/-! ## Edits that add -/

/-- An operation can be placed: its operands exist, and its value has no definition yet. -/
def Placeable (f : Function) (op : Op) (dest : Option ValueId) : Prop :=
  (∀ v ∈ op.operands, v.index < f.values.size) ∧
    ∀ d ∈ dest, d.index < f.values.size ∧ (f.value d).definition = none

instance (f : Function) (op : Op) (dest : Option ValueId) : Decidable (f.Placeable op dest) :=
  inferInstanceAs (Decidable (_ ∧ _))

section Add

lemma Orderly.empty (method : MethodRef) (isStatic : Bool) :
    (Function.empty method isStatic).Orderly :=
  ⟨Exact.empty method isStatic, fun _ _ => block_of_size_le _ (Nat.zero_le _)⟩

section

variable (h : f.Orderly)
include h

lemma Orderly.addBlock : f.addBlock.2.Orderly := by
  refine ⟨h.exact.addBlock, fun b hb => ?_⟩
  rw [block_addBlock] at hb ⊢
  split
  · rename_i hnew
    simp [hnew] at hb
  · rename_i hold
    rw [if_neg hold] at hb
    exact h.gone b hb

lemma Orderly.of_block {g : Function} (hg : g.Exact) (hb : f.LiveBlock b)
    (hremoved : (g.block b).removed = (f.block b).removed)
    (hblock : ∀ c, c ≠ b → g.block c = f.block c) : g.Orderly := by
  refine ⟨hg, fun c hc => ?_⟩
  by_cases hcb : c = b
  · rw [hcb, hremoved, hb] at hc
    simp at hc
  · rw [hblock c hcb] at hc ⊢
    exact h.gone c hc

lemma Orderly.insertInsn (n : Nat) (position : Position) (hb : f.LiveBlock b)
    (hplace : f.Placeable op dest) : (f.insertInsn b n op dest position).2.Orderly := by
  have hlt := f.lt_blocks_of_live hb
  refine h.of_block (h.exact.insertInsn n position hlt hplace.1 hplace.2) hb ?_ fun c hc => ?_
  · rw [insertInsn_snd, block_modifyBlock]
    split <;> simp
  · rw [insertInsn_snd, block_modifyBlock_ne _ _ (Ne.symm hc), block_createInsn]

lemma Orderly.appendInsn (position : Position) (hb : f.LiveBlock b)
    (hplace : f.Placeable op dest) : (f.appendInsn b op dest position).2.Orderly := by
  rw [appendInsn_eq]
  exact h.insertInsn _ position hb hplace

lemma Orderly.addValue (ty : ValueType) : (f.addValue ty).2.Orderly :=
  ⟨h.exact.addValue ty, h.gone⟩

lemma Orderly.appendValue (ty : ValueType) (position : Position) (hb : f.LiveBlock b)
    (hplace : f.Placeable op none) : (f.appendValue b op ty position).2.Orderly := by
  have hsize : (f.addValue ty).2.values.size = f.values.size + 1 := by
    simp [Function.addValue]
  refine (h.addValue ty).appendInsn position hb ⟨fun v hv => ?_, fun d hd => ?_⟩
  · have := hplace.1 v hv
    omega
  · obtain rfl := Option.some.inj hd
    refine ⟨?_, ?_⟩
    · rw [hsize]
      exact Nat.lt_succ_self _
    · rw [value_addValue]
      simp

lemma Orderly.insertPhi (ty : ValueType) (hb : f.LiveBlock b) : (f.insertPhi b ty).2.Orderly := by
  have hlt := f.lt_blocks_of_live hb
  have hblock : ∀ c, (f.insertPhi b ty).2.block c = if b = c ∧ b.index < f.blocks.size then
      { f.block c with phis := (f.block c).phis ++ [⟨f.phis.size⟩] } else f.block c :=
    fun c => block_modifyBlock _ _ _ _
  refine h.of_block (h.exact.insertPhi ty hlt) hb ?_ fun c hc => ?_
  · rw [hblock]
    split <;> rfl
  · rw [hblock, if_neg fun hand => hc hand.1.symm]

end

end Add

/-! ## Another operation in place -/

section ReplaceOp

variable (f : Function) (i : InsnId) (op : Op)

lemma insn_replaceOp (j : InsnId) : (f.replaceOp i op).insn j =
    if i = j ∧ i.index < f.insns.size then { f.insn j with op } else f.insn j := by
  simp [replaceOp, insn_modifyInsn]

@[simp] lemma phi_replaceOp (p : PhiId) : (f.replaceOp i op).phi p = f.phi p := by
  simp [replaceOp]

@[simp] lemma block_replaceOp (b : BlockId) : (f.replaceOp i op).block b = f.block b := by
  simp [replaceOp]

@[simp] lemma definition_replaceOp (v : ValueId) :
    ((f.replaceOp i op).value v).definition = (f.value v).definition := by
  simp [replaceOp, definition_addUsers, definition_removeUsers]

lemma mem_users_replaceOp (v : ValueId) (s : Site) :
    s ∈ ((f.replaceOp i op).value v).users ↔
      (s ∈ (f.value v).users ∧ ¬(s = .insn i ∧ v ∈ (f.insn i).op.operands)) ∨
        (s = .insn i ∧ v ∈ op.operands ∧ f.HasValue v) := by
  simp only [replaceOp, value_modifyInsn, mem_users_addUsers, mem_users_removeUsers,
    size_values_removeUsers]

end ReplaceOp

lemma Exact.replaceOp (h : f.Exact) {i : InsnId} (hi : f.LiveInsn i)
    (hops : ∀ v ∈ op.operands, f.HasValue v) : (f.replaceOp i op).Exact := by
  have hlt := f.lt_insns_of_live hi
  have hinsn : ∀ j, (f.replaceOp i op).insn j =
      if i = j then { f.insn j with op } else f.insn j := by
    intro j
    simp [insn_replaceOp, hlt]
  refine h.reread (fun j => ?_) (fun p => ⟨(f.phi p).operands, by simp, h.phi_gone p⟩) (by simp)
    (by simp) (by simp) (fun v s => ?_) fun v => nodup_users_addUsers _ _ _ _
      (nodup_users_removeUsers _ _ _ _ (h.users_nodup v))
  · rw [hinsn]
    split
    · rename_i hij
      exact ⟨op, rfl, fun hr => absurd hi (by simp [hij, hr])⟩
    · exact ⟨(f.insn j).op, rfl, fun hr => (h.insn_gone j hr).1⟩
  · rw [mem_users_replaceOp, h.users_iff]
    cases s with
    | phi p => simp [Reads]
    | insn j =>
      simp only [Reads, hinsn, Site.insn.injEq]
      by_cases hij : i = j
      · subst hij
        simp only [true_and, and_not_self_iff, false_or, if_true]
        exact ⟨fun hv => hv.1, fun hv => ⟨hv, hops v hv⟩⟩
      · simp [hij, Ne.symm hij]

lemma Exact.modifyInsn_mapTargets (h : f.Exact) (i : InsnId) (g : BlockId → BlockId) :
    (f.modifyInsn i fun insn => { insn with op := insn.op.mapTargets g }).Exact := by
  have hinsn : ∀ j, ∃ op, (f.modifyInsn i fun insn =>
      { insn with op := insn.op.mapTargets g }).insn j = { f.insn j with op } ∧
        op.operands = (f.insn j).op.operands ∧ ((f.insn j).op = .nop → op = .nop) := by
    intro j
    rw [insn_modifyInsn]
    split
    · exact ⟨_, rfl, Op.operands_mapTargets _ _, fun hop => by rw [hop]; rfl⟩
    · exact ⟨_, rfl, rfl, id⟩
  refine h.reread (fun j => ?_) (fun p => ⟨(f.phi p).operands, by simp, h.phi_gone p⟩) (by simp)
    (by simp) (by simp) (fun v s => ?_) (by simpa using h.users_nodup)
  · obtain ⟨op, heq, -, hnop⟩ := hinsn j
    exact ⟨op, heq, fun hr => hnop (h.insn_gone j hr).1⟩
  · rw [value_modifyInsn, h.users_iff]
    cases s with
    | insn j =>
      obtain ⟨op, heq, hops, -⟩ := hinsn j
      rw [Reads, Reads, heq, hops]
    | phi p => simp [Reads]

lemma Orderly.retarget (h : f.Orderly) (b source target : BlockId) :
    (f.retarget b source target).2.Orderly := by
  unfold Function.retarget
  split
  · exact h
  · exact ⟨h.exact.modifyInsn_mapTargets _ _, h.gone⟩

end Dissolve.Ssa.Function
