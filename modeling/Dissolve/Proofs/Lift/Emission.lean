import Dissolve.Proofs.Lift.Reading

/-!
# Proofs.Lift.Emission — appended instructions

An instruction is appended to a block that is not lifted yet. Its operands are available there, so
the progress stays sound, all that was recorded or available stays so, and the value of the
instruction is available from then on.
-/

namespace Dissolve

open List
open Ssa (Function Op Position)

variable {c : BlockId} {v w : ValueId} {s : Site}

namespace Ssa.Function

/-- The function `g` has one instruction more than `f`, at the end of a block. -/
structure Appends (f g : Function) (b : BlockId) (op : Op) (dest : Option ValueId) : Prop where
  exact : g.Exact
  size_blocks : g.blocks.size = f.blocks.size
  size_insns : g.insns.size = f.insns.size + 1
  size_values : f.values.size ≤ g.values.size
  phis : g.phis = f.phis
  block : ∀ c, g.block c =
    if c = b then { f.block b with insns := (f.block b).insns ++ [⟨f.insns.size⟩] } else f.block c
  insn_old : ∀ i : InsnId, i.index < f.insns.size → g.insn i = f.insn i
  insn_new : (g.insn ⟨f.insns.size⟩).op = op ∧ (g.insn ⟨f.insns.size⟩).dest = dest ∧
    (g.insn ⟨f.insns.size⟩).block = b ∧ (g.insn ⟨f.insns.size⟩).removed = false
  definition : ∀ v, (g.value v).definition =
    if dest = some v then some (.insn ⟨f.insns.size⟩) else (f.value v).definition
  dest_new : ∀ v, dest = some v → v.index = f.values.size

section Append

variable {f : Function} {b : BlockId} {op : Op} (position : Position)

/-- The instruction may be appended after a value has been added. -/
lemma appends_of_eq (f' : Function) {dest : Option ValueId} (h : f'.Exact)
    (hblocks : f'.blocks = f.blocks) (hinsns : f'.insns = f.insns) (hphis : f'.phis = f.phis)
    (hsize : f.values.size ≤ f'.values.size)
    (hdefs : ∀ v, (f'.value v).definition = (f.value v).definition) (hb : f.HasBlock b)
    (hops : ∀ v ∈ op.operands, f'.HasValue v)
    (hdest : ∀ d, dest = some d → f'.HasValue d ∧ d.index = f.values.size) :
    f.Appends (f'.appendInsn b op dest position).2 b op dest := by
  have hblock : ∀ c, f'.block c = f.block c := fun c => by rw [block, hblocks, block]
  have hb' : b.index < f'.blocks.size := hblocks ▸ hb
  have hnew : ∀ d, dest = some d → (f'.value d).definition = none := fun d hd => by
    rw [hdefs, f.value_of_size_le (hdest d hd).2.ge]
    rfl
  refine ⟨h.appendInsn position hb' hops fun d hd => ⟨(hdest d hd).1, hnew d hd⟩, ?_, ?_, ?_, ?_, ?_,
    ?_, ?_, ?_, fun d hd => (hdest d hd).2⟩
  · simp [appendInsn_eq, insertInsn_snd, hblocks]
  · simp [appendInsn, createInsn, modifyBlock, hinsns]
  · simpa [appendInsn_eq, insertInsn_snd] using hsize
  · simp [appendInsn_eq, insertInsn_snd, hphis]
  · intro c
    simp only [appendInsn_eq, insertInsn_snd, block_modifyBlock, block_createInsn, blocks_createInsn,
      hb', and_true, hblock, hinsns]
    by_cases hc : c = b
    · simp [hc]
    · simp [hc, Ne.symm hc]
  · intro i hi
    have hne : i.index ≠ f'.insns.size := by rw [hinsns]; omega
    simp only [appendInsn_eq, insertInsn_snd, insn_modifyBlock, insn_createInsn, hne, if_false]
    rw [insn, hinsns, insn]
  · simp [appendInsn_eq, insertInsn_snd, insn_createInsn, hinsns]
  · intro v
    rw [appendInsn_eq, insertInsn_snd, value_modifyBlock, definition_createInsn, hdefs, hinsns]
    exact if_congr (and_iff_left_of_imp fun hv => (hdest v hv).1) rfl rfl

section

variable (h : f.Exact) (hb : f.HasBlock b)
  (hops : ∀ v ∈ op.operands, f.HasValue v)
include h hb hops

lemma appends_appendInsn : f.Appends (f.appendInsn b op none position).2 b op none :=
  appends_of_eq position f h rfl rfl rfl le_rfl (fun _ => rfl) hb hops (by simp)

lemma appends_appendValue (ty : ValueType) :
    f.Appends (f.appendValue b op ty position).2 b op (some ⟨f.values.size⟩) := by
  have hsize : (f.addValue ty).2.values.size = f.values.size + 1 := by simp [addValue]
  refine appends_of_eq position (f.addValue ty).2 (h.addValue ty) rfl rfl rfl (by omega) (fun v => ?_) hb
    (fun v hv => ?_) ?_
  · rw [value_addValue]
    split
    · rw [f.value_of_size_le (by omega)]
      rfl
    · rfl
  · have := hops v hv
    omega
  · rintro d hd
    rw [← Option.some.inj hd, HasValue, hsize]
    exact ⟨Nat.lt_succ_self _, rfl⟩

end

end Append

namespace Appends

variable {f g : Function} {b : BlockId} {op : Op} {dest : Option ValueId}

section

variable (h : f.Appends g b op dest)
include h

lemma phi (q : PhiId) : g.phi q = f.phi q := by
  rw [Function.phi, h.phis, Function.phi]

lemma preds (c : BlockId) : g.predecessors c = f.predecessors c := by
  rw [predecessors, h.block, predecessors]
  split
  · next hc => rw [hc]
  · rfl

lemma definition_old (hv : (f.value v).definition = some s) : (g.value v).definition = some s := by
  have hlt := f.lt_values_of_definition hv
  rw [h.definition, if_neg, hv]
  intro hd
  have := h.dest_new v hd
  omega

lemma extended (hf : f.Exact) : f.Extends g where
  entry := rfl
  preds := h.preds
  definition v s hs := by
    refine ⟨h.definition_old hs, ?_⟩
    cases s with
    | phi q => rw [siteBlock, h.phi, siteBlock]
    | insn i =>
      have hd : (f.insn i).dest = some v := (hf.definition_iff v (.insn i)).1 hs
      rw [siteBlock, h.insn_old i (f.lt_insns_of_live (hf.live_of_dest hd)), siteBlock]
  insn := h.insn_old
  insns c := by
    rw [h.block]
    split
    · next hc =>
        rw [hc, filter_append, filter_cons_of_neg (by simp), filter_nil, append_nil,
          hf.filter_insns]
    · exact hf.filter_insns c
  size := by rw [h.size_insns]; omega

lemma flow {pending : PhiId → Prop} (hf : f.Flow pending)
    (hops : ∀ v ∈ op.operands, (f.value v).definition.isSome ∧ f.AvailEnd v b) :
    g.Flow pending := by
  have he := h.extended hf.exact
  refine he.flow hf h.exact (fun q => .inr (.inr ⟨h.phi q, Iff.rfl⟩)) fun j v hv => ?_
  by_cases hj : f.HasInsn j
  · rw [h.insn_old j hj] at hv
    exact .inl hv
  · -- the new instruction stands behind all that its block had
    have hlt := g.lt_insns_of_live (h.exact.live_of_reads_insn hv)
    rw [HasInsn, h.size_insns] at hlt
    obtain rfl : j = ⟨f.insns.size⟩ := InsnId.eq_iff.2 (by simp; omega)
    rw [h.insn_new.1] at hv
    obtain ⟨hdef, hav⟩ := hops v hv
    have hlist : (g.block b).insns = (f.block b).insns ++ ⟨f.insns.size⟩ :: [] := by
      rw [h.block, if_pos rfl]
    refine .inr ⟨?_, he.defined hdef⟩
    rw [AvailAt, h.exact.front_eq hlist, h.insn_new.2.2.1]
    exact he.carries.avail_before (hav.before hf.exact hdef)

end

end Appends

end Ssa.Function

namespace Lift.Progress

variable {p : Progress} {gaps : List Gap} {g : Function} {b : BlockId} {op : Op}
  {dest : Option ValueId}

section Append

section

variable (h : p.func.Appends g b op dest)
include h

lemma keeps_append : Keeps p { p with func := g } := by
  refine ⟨rfl, rfl, fun _ hc => hc, fun _ hc => hc, h.size_blocks, (by rw [h.size_insns]; omega),
    (by rw [h.phis]), h.size_values, fun c => ?_, h.insn_old, fun v hv => ?_,
    fun q _ => by simp [h.phi q]⟩
  · rw [h.block]
    split
    · next hc =>
        subst hc
        exact ⟨rfl, rfl, prefix_append _ _, rfl⟩
    · exact ⟨rfl, rfl, prefix_refl _, rfl⟩
  · rw [h.definition, if_neg]
    intro hd
    have := h.dest_new v hd
    omega

lemma usable_dest (hv : dest = some v) : Progress.Usable { p with func := g } b v := by
  have hdest := h.insn_new.2.1.trans hv
  refine ⟨?_, fun t _ => ⟨b, mem_cons_self, ?_⟩⟩
  · rw [(h.exact.definition_iff v (.insn ⟨p.func.insns.size⟩)).2 hdest]
    rfl
  · rw [h.exact.definingBlock?_of_dest hdest, h.insn_new.2.2.1]

lemma sound_append (hs : p.Sound gaps)
    (hops : ∀ v ∈ op.operands, p.Usable b v) : Progress.Sound { p with func := g } gaps :=
  (keeps_append h).sound hs rfl rfl rfl (h.flow hs.flow hops) (fun _ _ _ hq => .inl hq)
    hs.gaps_nodup hs.gaps_waiting

lemma later_append (hs : p.Sound gaps) : Later p { p with func := g } gaps gaps := by
  refine (keeps_append h).later hs (fun c _ hphis => ?_) fun _ _ _ =>
    (keeps_append h).starts hs (fun _ _ _ hq => hq) fun q _ => by rw [h.phi]
  rw [h.block]
  split
  · next hc => rw [← hphis, hc]
  · exact hphis

end

end Append

/-! ## Names of values -/

section Name

variable (v : ValueId) (name : String)

lemma definition_setDebugName (f : Function) (w : ValueId) :
    ((f.setDebugName v name).value w).definition = (f.value w).definition := by
  rw [Function.setDebugName, Function.value_modifyValue]
  split <;> rfl

def nameValue (p : Progress) (v : ValueId) (name : String) : Progress :=
  { p with func := p.func.setDebugName v name }

lemma keeps_nameValue : Keeps p (p.nameValue v name) :=
  ⟨rfl, rfl, fun _ hc => hc, fun _ hc => hc, rfl, le_rfl, le_rfl,
    by simp [nameValue, Function.setDebugName], fun _ => ⟨rfl, rfl, prefix_refl _, rfl⟩,
    fun _ _ => rfl, fun w _ => definition_setDebugName v name p.func w, fun _ _ => ⟨rfl, rfl⟩⟩

lemma sound_nameValue (hs : p.Sound gaps) : (p.nameValue v name).Sound gaps := by
  have hext : p.func.Extends (p.func.setDebugName v name) :=
    .of_blocks hs.flow.exact rfl rfl (fun _ => ⟨rfl, rfl⟩)
      (fun w _ hw => (definition_setDebugName v name p.func w).trans hw) fun _ _ _ => rfl
  refine (keeps_nameValue v name).sound hs rfl rfl rfl ?_ (fun _ _ _ hq => .inl hq) hs.gaps_nodup
    hs.gaps_waiting
  exact hext.flow hs.flow (hs.flow.exact.setDebugName v name)
    (fun _ => .inr (.inr ⟨rfl, Iff.rfl⟩)) fun _ _ hw => .inl hw

lemma later_nameValue (hs : p.Sound gaps) : Later p (p.nameValue v name) gaps gaps :=
  (keeps_nameValue v name).later hs (fun _ _ hphis => hphis) fun _ _ _ =>
    (keeps_nameValue v name).starts hs (fun _ _ _ hq => hq) fun _ _ => rfl

end Name

end Lift.Progress

end Dissolve
