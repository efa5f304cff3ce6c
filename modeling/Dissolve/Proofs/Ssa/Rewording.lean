import Dissolve.Proofs.Ssa.Orderly

/-!
# Proofs.Ssa.Rewording — instructions that say the same in other words

Renaming references changes the operations of instructions, but neither what they read nor where
they lead. A function that differs from a well-formed one in such a way only is well formed
(`Rewords.wellFormed`).
-/

namespace Dissolve.Ssa

/-- Two operations read the same values, lead to the same blocks and agree on whether they fetch a caught
exception. -/
structure Op.Alike (op op' : Op) : Prop where
  operands : op'.operands = op.operands
  targets : op'.targets = op.targets
  isTerminator : op'.isTerminator = op.isTerminator
  caught : (∃ guard, op' = .moveException guard) ↔ ∃ guard, op = .moveException guard

lemma Op.Alike.refl (op : Op) : op.Alike op := ⟨rfl, rfl, rfl, Iff.rfl⟩

lemma Op.Alike.cross {op op' op'' : Op} (h : op.Alike op') (h' : op.Alike op'') : op'.Alike op'' :=
  ⟨h'.operands.trans h.operands.symm, h'.targets.trans h.targets.symm,
    h'.isTerminator.trans h.isTerminator.symm, h'.caught.trans h.caught.symm⟩

namespace Function

/-- Two functions differ in the words of their operations, in the order of users and in their lens
only. -/
structure Rewords (f g : Function) : Prop where
  block : ∀ b, g.block b = f.block b
  definition : ∀ v, (g.value v).definition = (f.value v).definition
  phi : ∀ q, g.phi q = f.phi q
  insn : ∀ i, ∃ op, g.insn i = { f.insn i with op } ∧ (f.insn i).op.Alike op
  exact : f.Exact → g.Exact

namespace Rewords

variable {f g : Function}

section

variable {v : ValueId} {b : BlockId} (h : f.Rewords g)
include h

lemma dest (i : InsnId) : (g.insn i).dest = (f.insn i).dest := by
  obtain ⟨op, hop, -⟩ := h.insn i
  rw [hop]

lemma removed (i : InsnId) : (g.insn i).removed = (f.insn i).removed := by
  obtain ⟨op, hop, -⟩ := h.insn i
  rw [hop]

lemma insn_block (i : InsnId) : (g.insn i).block = (f.insn i).block := by
  obtain ⟨op, hop, -⟩ := h.insn i
  rw [hop]

lemma alike (i : InsnId) : (f.insn i).op.Alike (g.insn i).op := by
  obtain ⟨op, hop, halike⟩ := h.insn i
  rw [hop]
  exact halike

lemma predecessors (b : BlockId) : g.predecessors b = f.predecessors b := by
  rw [Function.predecessors, h.block, Function.predecessors]

lemma successors (b : BlockId) : g.successors b = f.successors b := by
  have hterm : g.terminator? b = f.terminator? b := by
    simp only [terminator?, h.block, (h.alike _).isTerminator]
  simp only [Function.successors, normalSuccessors, hterm, h.block, (h.alike _).targets]

lemma reads (v : ValueId) (s : Site) : g.Reads v s ↔ f.Reads v s := by
  cases s with
  | insn i => simp only [Reads, (h.alike i).operands]
  | phi q => simp only [Reads, h.phi]

lemma definingBlock? (v : ValueId) : g.definingBlock? v = f.definingBlock? v := by
  have hsite : g.siteBlock = f.siteBlock := by
    funext s
    cases s with
    | insn i => exact h.insn_block i
    | phi q => simp only [siteBlock, h.phi]
  rw [definingBlock?_eq, definingBlock?_eq, h.definition, hsite]

lemma trail {l : List BlockId} (hl : g.Trail l) : f.Trail l :=
  hl.congr fun b => (h.predecessors b).symm

lemma availEnd (hv : f.AvailEnd v b) : g.AvailEnd v b := by
  intro t ht
  obtain ⟨c, hc, hdef⟩ := hv t (h.trail ht)
  exact ⟨c, hc, by rw [h.definingBlock?, hdef]⟩

lemma availBefore {before : List InsnId} (hv : f.AvailBefore v b before) :
    g.AvailBefore v b before := by
  rcases hv with ⟨i, hi, hdest⟩ | hstart
  · exact .inl ⟨i, hi, by rw [h.dest, hdest]⟩
  · refine .inr fun t ht => ?_
    rcases hstart t (h.trail ht) with ⟨c, hc, hdef⟩ | ⟨q, hdef, hblock⟩
    · exact .inl ⟨c, hc, by rw [h.definingBlock?, hdef]⟩
    · exact .inr ⟨q, by rw [h.definition, hdef], by rw [h.phi, hblock]⟩

lemma flow {pending : PhiId → Prop} (hf : f.Flow pending) : g.Flow pending := by
  refine ⟨h.exact hf.exact, ?_, ?_, ?_, ?_, ?_, ?_⟩
  · exact (h.predecessors _).trans hf.entry_preds
  · simpa only [h.phi] using hf.waits
  · simpa only [h.phi, h.predecessors] using hf.arity
  · intro q j v p hv hp
    rw [h.phi] at hv hp
    rw [h.predecessors] at hp
    exact h.availEnd (hf.phi_avail q j v p hv hp)
  · intro b before i after hb v hv
    rw [h.block] at hb
    rw [(h.alike i).operands] at hv
    exact h.availBefore (hf.insn_avail b before i after hb v hv)
  · intro v s hs
    rw [h.definition]
    exact hf.defined v s ((h.reads v s).1 hs)

end

theorem wellFormed (h : f.Rewords g) (hf : f.WellFormed) : g.WellFormed := by
  refine ⟨h.flow hf.flow, ?_, ?_, ?_, ?_⟩
  · rw [h.block]
    exact hf.entry_live
  · simpa only [h.block] using hf.gone
  · simpa only [h.block, (h.alike _).isTerminator] using hf.terminated
  · simpa only [h.predecessors, h.successors] using hf.edges

lemma trans {h : Function} (hfg : f.Rewords g) (hgh : g.Rewords h) : f.Rewords h where
  block b := (hgh.block b).trans (hfg.block b)
  definition v := (hgh.definition v).trans (hfg.definition v)
  phi q := (hgh.phi q).trans (hfg.phi q)
  insn i := by
    obtain ⟨op, hop, halike⟩ := hgh.insn i
    obtain ⟨op', hop', halike'⟩ := hfg.insn i
    refine ⟨op, by rw [hop, hop'], ?_⟩
    rw [hop'] at halike
    exact ⟨halike.operands.trans halike'.operands, halike.targets.trans halike'.targets,
      halike.isTerminator.trans halike'.isTerminator, halike.caught.trans halike'.caught⟩
  exact hf := hgh.exact (hfg.exact hf)

lemma replaceOp {i : InsnId} {op : Op} (hf : f.Exact) (hlive : f.LiveInsn i)
    (halike : (f.insn i).op.Alike op) : f.Rewords (f.replaceOp i op) where
  block := f.block_replaceOp i op
  definition := f.definition_replaceOp i op
  phi := f.phi_replaceOp i op
  insn j := by
    rw [insn_replaceOp]
    split
    · rename_i hij
      exact ⟨op, rfl, hij.1 ▸ halike⟩
    · exact ⟨_, rfl, .refl _⟩
  exact _ := hf.replaceOp hlive fun v hv =>
    hf.lt_of_reads (s := .insn i) (halike.operands ▸ hv : v ∈ (f.insn i).op.operands)

end Rewords

lemma rewords_lens (f : Function) (lens : Option LensId) : f.Rewords { f with lens } :=
  ⟨fun _ => rfl, fun _ => rfl, fun _ => rfl, fun _ => ⟨_, rfl, .refl _⟩,
    fun h => h.congr (fun _ => rfl) (fun _ => rfl) (fun _ => rfl) (fun _ => rfl) (fun _ => rfl) fun _ => rfl⟩

end Function

end Dissolve.Ssa
