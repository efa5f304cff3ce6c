import Dissolve.Proofs.Inline.Binding

/-!
# Proofs.Inline.Additions — edits that only add

Blocks, values, phis and instructions are added to a function. What stood there before is left alone
(`Ahead`).
-/

namespace Dissolve.Inline

open Ssa (Edit Function Op Position)
open Ssa.Function
open Semantics

/-! ## What copying leaves alone -/

structure Ahead (f g : Function) : Prop where
  block : ∀ b : BlockId, b.index < f.blocks.size → g.block b = f.block b
  insn : ∀ i : InsnId, i.index < f.insns.size → g.insn i = f.insn i
  phi : ∀ q : PhiId, q.index < f.phis.size → g.phi q = f.phi q
  blocks : f.blocks.size ≤ g.blocks.size
  insns : f.insns.size ≤ g.insns.size
  phis : f.phis.size ≤ g.phis.size
  values : f.values.size ≤ g.values.size

namespace Ahead

variable {f g h : Function} {b : BlockId}

lemma refl (f : Function) : Ahead f f :=
  ⟨fun _ _ => rfl, fun _ _ => rfl, fun _ _ => rfl, le_rfl, le_rfl, le_rfl, le_rfl⟩

lemma trans (hfg : Ahead f g) (hgh : Ahead g h) : Ahead f h where
  block b hb := (hgh.block b (hb.trans_le hfg.blocks)).trans (hfg.block b hb)
  insn i hi := (hgh.insn i (hi.trans_le hfg.insns)).trans (hfg.insn i hi)
  phi q hq := (hgh.phi q (hq.trans_le hfg.phis)).trans (hfg.phi q hq)
  blocks := hfg.blocks.trans hgh.blocks
  insns := hfg.insns.trans hgh.insns
  phis := hfg.phis.trans hgh.phis
  values := hfg.values.trans hgh.values

lemma addBlock (g : Function) : Ahead g g.addBlock.2 where
  block b hb := by rw [block_addBlock, if_neg (by omega)]
  insn _ _ := rfl
  phi _ _ := rfl
  blocks := by simp [Ssa.Function.addBlock]
  insns := le_rfl
  phis := le_rfl
  values := le_rfl

end Ahead

/-! ## Appending -/

section Append

variable {g : Function} {b : BlockId} {op : Op} {dest : Option ValueId}
  {position : Position}

lemma insn_appendInsn (j : InsnId) : (g.appendInsn b op dest position).2.insn j =
    if j.index = g.insns.size then ⟨op, dest, b, position, false⟩ else g.insn j :=
  insn_createInsn g b op dest position j

lemma block_appendInsn (hb : g.HasBlock b) (c : BlockId) :
    (g.appendInsn b op dest position).2.block c = if b = c then
      { g.block c with insns := (g.block c).insns ++ [⟨g.insns.size⟩] } else g.block c := by
  have happend : (g.appendInsn b op dest position).2 =
      (g.createInsn b op dest position).2.modifyBlock b fun block =>
        { block with insns := block.insns ++ [⟨g.insns.size⟩] } := rfl
  rw [happend, block_modifyBlock, block_createInsn, blocks_createInsn]
  simp [hb]

lemma size_appendInsn : (g.appendInsn b op dest position).2.insns.size = g.insns.size + 1 := by
  simp [Ssa.Function.appendInsn, Ssa.Function.createInsn]

lemma blocks_appendInsn : (g.appendInsn b op dest position).2.blocks.size = g.blocks.size := by
  simp [Ssa.Function.appendInsn]

lemma phis_appendInsn : (g.appendInsn b op dest position).2.phis = g.phis := by
  simp [Ssa.Function.appendInsn]

lemma values_appendInsn : (g.appendInsn b op dest position).2.values.size = g.values.size := by
  simp [Ssa.Function.appendInsn]

lemma definition_appendInsn {v : ValueId} (hv : dest ≠ some v) :
    ((g.appendInsn b op dest position).2.value v).definition = (g.value v).definition := by
  have happend : (g.appendInsn b op dest position).2.value v =
      (g.createInsn b op dest position).2.value v := rfl
  rw [happend, definition_createInsn, if_neg fun hand => hv hand.1]

end Append

/-! ## New phis -/

section Phis

variable {f g : Function} {b : BlockId} {ty : ValueType}

lemma Ahead.insertPhi (h : Ahead f g) (hnew : f.blocks.size ≤ b.index) :
    Ahead f (g.insertPhi b ty).2 where
  block c hc := by
    rw [block_insertPhi, if_neg fun hand => absurd hc (by rw [← hand.1]; omega)]
    exact h.block c hc
  insn := h.insn
  phi q hq := by
    rw [phi_insertPhi, if_neg (by have := h.phis; omega)]
    exact h.phi q hq
  blocks := h.blocks.trans_eq (by simp)
  insns := h.insns
  phis := h.phis.trans (by simp)
  values := h.values.trans (by simp)

end Phis

end Dissolve.Inline
