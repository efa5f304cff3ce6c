import Dissolve.Proofs.Ssa.WellFormed

/-!
# Proofs.Ssa.Growth — edits that only add code

A new phi, operands for a phi that waits for them, and a new instruction leave the edges and all
definitions where they are.

* `Function.front`: the instructions before an instruction in its block; `Function.AvailAt`: a value is
  there when an instruction is reached.
* `Function.Extends`: an edit that adds code. What was available stays available
  (`Extends.carries`, `Extends.availAt`).
* `Flow.insertPhi`, `Flow.fillPhi`, `Flow.insertInsn`: every use is still available.
* `Extends.wellFormed`: a well-formed function stays so if the added code ends no block.
-/

namespace Dissolve.Ssa.Function

open List

variable {f g h : Function} {pending : PhiId → Prop} {b : BlockId} {i : InsnId} {q : PhiId}
  {v : ValueId} {before after : List InsnId}

lemma lt_blocks_of_mem_insns (hi : i ∈ (f.block b).insns) : f.HasBlock b := by
  by_contra hle
  rw [f.block_of_size_le (Nat.le_of_not_lt hle)] at hi
  cases hi

/-! ## In front of an instruction -/

def front (f : Function) (i : InsnId) : List InsnId :=
  (f.block (f.insn i).block).insns.takeWhile fun j => j ≠ i

/-- The value is there when an instruction is reached. -/
def AvailAt (f : Function) (v : ValueId) (i : InsnId) : Prop :=
  f.AvailBefore v (f.insn i).block (f.front i)

lemma takeWhile_of_notMem (hi : i ∉ before) :
    (before ++ i :: after).takeWhile (fun j => j ≠ i) = before := by
  have hne : ∀ j ∈ before, decide (j ≠ i) := by
    intro j hj
    simpa using fun heq : j = i => hi (heq ▸ hj)
  rw [takeWhile_append_of_pos hne, takeWhile_cons_of_neg (by simp), append_nil]

lemma filter_takeWhile_ne {p : InsnId → Bool} (hi : p i) (l : List InsnId) :
    (l.takeWhile fun j => j ≠ i).filter p = (l.filter p).takeWhile fun j => j ≠ i := by
  induction l with
  | nil => rfl
  | cons j rest ih =>
    by_cases hj : j = i
    · subst hj
      rw [takeWhile_cons_of_neg (by simp), filter_cons_of_pos hi,
        takeWhile_cons_of_neg (by simp), filter_nil]
    · rw [takeWhile_cons_of_pos (by simpa using hj)]
      by_cases hp : p j = true
      · rw [filter_cons_of_pos hp, filter_cons_of_pos hp,
          takeWhile_cons_of_pos (by simpa using hj), ih]
      · rw [filter_cons_of_neg hp, filter_cons_of_neg hp, ih]

namespace Exact

lemma front_eq (hf : f.Exact) (hlist : (f.block b).insns = before ++ i :: after) :
    f.front i = before := by
  have hb : (f.insn i).block = b := (hf.of_split hlist).2
  rw [front, hb, hlist]
  exact takeWhile_of_notMem (hf.not_mem_of_split hlist).1

lemma insns_eq_front (hf : f.Exact) (hlive : f.LiveInsn i) :
    ∃ after, (f.block (f.insn i).block).insns = f.front i ++ i :: after := by
  obtain ⟨before, after, hlist⟩ := hf.exists_split hlive
  exact ⟨after, by rw [hlist, hf.front_eq hlist]⟩

end Exact

lemma Flow.availAt_operand (hf : f.Flow pending) (hv : v ∈ (f.insn i).op.operands) :
    f.AvailAt v i := by
  obtain ⟨after, hlist⟩ := hf.exact.insns_eq_front (hf.exact.live_of_reads_insn hv)
  exact hf.insn_avail _ _ i after hlist v hv

/-! ## Edits that add code -/

/-- Edges, definitions and instructions stay, the new instructions of a block stand between the old
ones. -/
structure Extends (f g : Function) : Prop where
  entry : g.entry = f.entry
  preds : ∀ b, g.predecessors b = f.predecessors b
  definition : ∀ v s, (f.value v).definition = some s →
    (g.value v).definition = some s ∧ g.siteBlock s = f.siteBlock s
  insn : ∀ i : InsnId, i.index < f.insns.size → g.insn i = f.insn i
  insns : ∀ b, ((g.block b).insns.filter fun j => j.index < f.insns.size) = (f.block b).insns
  size : f.insns.size ≤ g.insns.size

lemma Exact.filter_insns (hf : f.Exact) (b : BlockId) :
    ((f.block b).insns.filter fun j => f.HasInsn j) = (f.block b).insns :=
  filter_eq_self.2 fun j hj => by
    simpa using f.lt_insns_of_live ((hf.insns_iff b j).1 hj).1

namespace Extends

lemma refl (hf : f.Exact) : f.Extends f :=
  ⟨rfl, fun _ => rfl, fun _ _ hs => ⟨hs, rfl⟩, fun _ _ => rfl, hf.filter_insns, le_rfl⟩

lemma trans (hfg : f.Extends g) (hgh : g.Extends h) : f.Extends h where
  entry := hgh.entry.trans hfg.entry
  preds b := (hgh.preds b).trans (hfg.preds b)
  definition v s hs := by
    obtain ⟨hs, hblock⟩ := hfg.definition v s hs
    exact (hgh.definition v s hs).imp_right fun hblock' => hblock'.trans hblock
  insn i hi := (hgh.insn i (hi.trans_le hfg.size)).trans (hfg.insn i hi)
  insns b := by
    rw [← hfg.insns b, ← hgh.insns b, filter_filter]
    refine filter_congr fun j _ => ?_
    have hle := hfg.size
    simp only [← Bool.decide_and, decide_eq_decide]
    omega
  size := hfg.size.trans hgh.size

theorem carries (he : f.Extends g) : f.Carries g id := by
  refine .of_extends he.preds he.definition fun i v hdest => ?_
  rw [he.insn i (f.lt_insns_of_dest hdest), hdest]

lemma defined (he : f.Extends g) (hv : ((f.value v).definition).isSome) :
    ((g.value v).definition).isSome := by
  obtain ⟨s, hs⟩ := Option.isSome_iff_exists.1 hv
  rw [(he.definition v s hs).1]
  rfl

theorem front (he : f.Extends g) (hi : f.HasInsn i) :
    ((g.front i).filter fun j => f.HasInsn j) = f.front i := by
  rw [Function.front, filter_takeWhile_ne (by simpa using hi), he.insn i hi, he.insns, Function.front]

lemma mem_front (he : f.Extends g) (hi : f.HasInsn i) {j : InsnId} (hj : j ∈ f.front i) :
    j ∈ g.front i := by
  rw [← he.front hi] at hj
  exact (mem_filter.1 hj).1

theorem availAt (he : f.Extends g) (hi : f.HasInsn i) (hv : f.AvailAt v i) : g.AvailAt v i := by
  rw [AvailAt, he.insn i hi]
  exact (he.carries.avail_before hv).mono fun j => he.mem_front hi

lemma of_blocks (hf : f.Exact) (hentry : g.entry = f.entry) (hinsns : g.insns = f.insns)
    (hblock : ∀ b, (g.block b).preds = (f.block b).preds ∧ (g.block b).insns = (f.block b).insns)
    (hdef : ∀ v s, (f.value v).definition = some s → (g.value v).definition = some s)
    (hphi : ∀ v q, (f.value v).definition = some (.phi q) → (g.phi q).block = (f.phi q).block) :
    f.Extends g where
  entry := hentry
  preds b := (hblock b).1
  definition v s hs := by
    refine ⟨hdef v s hs, ?_⟩
    cases s with
    | insn i => simp only [siteBlock, Function.insn, hinsns]
    | phi q => exact hphi v q hs
  insn i _ := by simp only [Function.insn, hinsns]
  insns b := by rw [(hblock b).2, hf.filter_insns]
  size := by rw [hinsns]

theorem insertPhi (hf : f.Exact) (b : BlockId) (ty : ValueType) :
    f.Extends (f.insertPhi b ty).2 := by
  refine of_blocks hf rfl rfl (fun c => ?_) (fun v s hs => ?_) fun v q hq => ?_
  · rw [block_insertPhi]
    split <;> exact ⟨rfl, rfl⟩
  · rw [value_insertPhi, if_neg (f.lt_values_of_definition hs).ne, hs]
  · have hlt := f.lt_phis_of_live ((hf.definition_iff v (.phi q)).1 hq).1
    rw [phi_insertPhi, if_neg hlt.ne]

lemma setPhiOperands (hf : f.Exact) (q : PhiId) (ops : List ValueId) :
    f.Extends (f.setPhiOperands q ops) := by
  refine of_blocks hf rfl (by simp) (by simp) (fun v s hs => by simpa using hs) fun v r _ => ?_
  rw [phi_setPhiOperands]
  split <;> rfl

lemma addValue (hf : f.Exact) (ty : ValueType) : f.Extends (f.addValue ty).2 := by
  refine of_blocks hf rfl rfl (fun _ => ⟨rfl, rfl⟩) (fun v s hs => ?_) fun _ _ _ => rfl
  rw [value_addValue, if_neg (f.lt_values_of_definition hs).ne, hs]

/-- Every use is available after an edit that adds code, if every phi waits, has the operands that its
edges bring or is an old one, and what a new instruction reads is there. -/
theorem flow {pending' : PhiId → Prop} (he : f.Extends g) (hf : f.Flow pending) (hg : g.Exact)
    (hphi : ∀ q, (g.LivePhi q ∧ (g.phi q).operands = [] ∧ pending' q) ∨
      (List.Forall₂ (fun p v => f.AvailEnd v p ∧ ((f.value v).definition).isSome)
        (f.predecessors (g.phi q).block) (g.phi q).operands ∧ ¬pending' q) ∨
      (g.phi q = f.phi q ∧ (pending' q ↔ pending q)))
    (hops : ∀ j, ∀ v ∈ (g.insn j).op.operands, v ∈ (f.insn j).op.operands ∨
      g.AvailAt v j ∧ ((g.value v).definition).isSome) : g.Flow pending' := by
  refine ⟨hg, by rw [he.entry, he.preds, hf.entry_preds], ?_, ?_, ?_, ?_, ?_⟩
  · intro q hq
    rcases hphi q with ⟨hlive, hnil, -⟩ | ⟨-, hnot⟩ | ⟨heq, hiff⟩
    · exact ⟨hlive, hnil⟩
    · exact absurd hq hnot
    · rw [heq]
      exact hf.waits q (hiff.1 hq)
  · intro q hq hnot
    rw [he.preds]
    rcases hphi q with ⟨-, -, hwait⟩ | ⟨hfilled, -⟩ | ⟨heq, hiff⟩
    · exact absurd hwait hnot
    · exact hfilled.length_eq.symm
    · rw [heq] at hq ⊢
      exact hf.arity q hq fun hwait => hnot (hiff.2 hwait)
  · intro q j v p hv hp
    rw [he.preds] at hp
    refine he.carries.avail_end v p ?_
    rcases hphi q with ⟨-, hnil, -⟩ | ⟨hfilled, -⟩ | ⟨heq, -⟩
    · simp [hnil] at hv
    · obtain ⟨hj, rfl⟩ := List.getElem?_eq_some_iff.1 hv
      obtain ⟨hj', rfl⟩ := List.getElem?_eq_some_iff.1 hp
      exact (hfilled.get hj' hj).1
    · rw [heq] at hv hp
      exact hf.phi_avail q j v p hv hp
  · intro c before j after hlist v hv
    have hat : g.AvailAt v j := by
      rcases hops j v hv with hv | ⟨hat, -⟩
      · exact he.availAt (f.lt_insns_of_live (hf.exact.live_of_reads_insn hv)) (hf.availAt_operand hv)
      · exact hat
    rwa [AvailAt, hg.front_eq hlist, (hg.of_split hlist).2] at hat
  · rintro v (j | q) hr
    · rcases hops j v hr with hr | ⟨-, hdef⟩
      · exact he.defined (hf.defined v (.insn j) hr)
      · exact hdef
    · refine he.defined ?_
      rcases hphi q with ⟨-, hnil, -⟩ | ⟨hfilled, -⟩ | ⟨heq, -⟩
      · simp [Reads, hnil] at hr
      · obtain ⟨j, hj, rfl⟩ := getElem_of_mem hr
        exact (hfilled.get (by rw [hfilled.length_eq]; exact hj) hj).2
      · rw [Reads, heq] at hr
        exact hf.defined v (.phi q) hr

lemma terminator? (he : f.Extends g) (hf : f.Exact)
    (hlast : ∀ b, (g.block b).insns.getLast? = (f.block b).insns.getLast?) (b : BlockId) :
    g.terminator? b = f.terminator? b := by
  rw [Function.terminator?, Function.terminator?, hlast]
  cases hend : (f.block b).insns.getLast? with
  | none => rfl
  | some i =>
    have hi := ((hf.insns_iff b i).1 (mem_of_getLast? hend)).1
    rw [Option.filter_some, Option.filter_some, he.insn i (f.lt_insns_of_live hi)]

theorem wellFormed (he : f.Extends g) (hf : f.WellFormed) (hg : g.Flow fun _ => False)
    (hremoved : ∀ b, (g.block b).removed = (f.block b).removed)
    (hhandlers : ∀ b, (g.block b).handlers = (f.block b).handlers)
    (hgone : ∀ b, f.block b = .gone → g.block b = .gone)
    (hlast : ∀ b, (g.block b).insns.getLast? = (f.block b).insns.getLast?)
    (hplain : ∀ i, f.insns.size ≤ i.index → g.LiveInsn i → (g.insn i).op.isTerminator = false) :
    g.WellFormed where
  flow := hg
  entry_live := by rw [he.entry, hremoved, hf.entry_live]
  gone b hb := hgone b (hf.gone b (by rwa [← hremoved]))
  terminated b hb := by
    rw [hremoved] at hb
    obtain ⟨front, last, hlist, hterm, hfront⟩ := hf.terminated b hb
    have hlt := f.lt_insns_of_live ((hf.exact.insns_iff b last).1 (by simp [hlist])).1
    have hend : (g.block b).insns.getLast? = some last := by rw [hlast, hlist]; simp
    obtain ⟨front', hlist'⟩ := getLast?_eq_some_iff.1 hend
    refine ⟨front', last, hlist', by rw [he.insn last hlt, hterm], fun i hi => ?_⟩
    have hmem : i ∈ (g.block b).insns := by simp [hlist', hi]
    rcases Nat.lt_or_ge i.index f.insns.size with hold | hnew
    · -- the terminator stands at the end only
      have hne : i ≠ last := by
        rintro rfl
        exact (hg.exact.not_mem_of_split hlist').1 hi
      have hmem' : i ∈ (f.block b).insns := by
        rw [← he.insns b]
        exact mem_filter.2 ⟨hmem, by simpa using hold⟩
      rw [hlist] at hmem'
      rw [he.insn i hold]
      exact hfront i ((mem_append.1 hmem').resolve_right fun h => hne (mem_singleton.1 h))
    · exact hplain i hnew ((hg.exact.insns_iff b i).1 hmem).1
  edges b p := by
    have hsucc : g.successors p = f.successors p := by
      rw [successors, successors, hhandlers, normalSuccessors, normalSuccessors,
        he.terminator? hf.exact hlast]
      cases hend : f.terminator? p with
      | none => rfl
      | some i =>
        have hmem : i ∈ (f.block p).insns := mem_of_getLast? (Option.filter_eq_some_iff.1 hend).1
        have hlt := f.lt_insns_of_live ((hf.exact.insns_iff p i).1 hmem).1
        simp only [he.insn i hlt]
    rw [he.preds, hsucc, hf.edges]

end Extends

/-! ## A new phi and its operands -/

namespace Flow

lemma congr {pending' : PhiId → Prop} (hf : f.Flow pending) (hiff : ∀ q, pending q ↔ pending' q) :
    f.Flow pending' := by
  obtain rfl : pending = pending' := funext fun q => propext (hiff q)
  exact hf

theorem insertPhi (hf : f.Flow pending) (ty : ValueType) (hb : f.HasBlock b) :
    (f.insertPhi b ty).2.Flow fun q => q = ⟨f.phis.size⟩ ∨ pending q := by
  refine (Extends.insertPhi hf.exact b ty).flow hf (hf.exact.insertPhi ty hb) (fun q => ?_)
    fun _ _ hv => .inl hv
  rw [LivePhi, phi_insertPhi]
  split
  · rename_i hq
    exact .inl ⟨rfl, rfl, .inl (PhiId.eq_iff.2 hq)⟩
  · rename_i hq
    exact .inr (.inr ⟨rfl, or_iff_right fun heq => hq (by rw [heq])⟩)

theorem fillPhi (hf : f.Flow pending) (hq : pending q) {ops : List ValueId}
    (hops : List.Forall₂ (fun p v => f.AvailEnd v p ∧ ((f.value v).definition).isSome)
      (f.predecessors (f.phi q).block) ops) :
    (f.setPhiOperands q ops).Flow fun r => r ≠ q ∧ pending r := by
  have hlive := (hf.waits q hq).1
  refine (Extends.setPhiOperands hf.exact q ops).flow hf
    (hf.exact.setPhiOperands (fun v hv => ?_) (.inr hlive)) (fun r => ?_)
    fun j v hv => .inl (by simpa using hv)
  · obtain ⟨j, hj, rfl⟩ := getElem_of_mem hv
    obtain ⟨s, hs⟩ := Option.isSome_iff_exists.1
      (hops.get (by rw [hops.length_eq]; exact hj) hj).2
    exact f.lt_values_of_definition hs
  · rw [LivePhi, phi_setPhiOperands]
    by_cases hrq : q = r
    · subst hrq
      rw [if_pos ⟨rfl, f.lt_phis_of_live hlive⟩]
      exact .inr (.inl ⟨hops, fun hr => hr.1 rfl⟩)
    · rw [if_neg fun hr => hrq hr.1]
      exact .inr (.inr ⟨rfl, and_iff_right (Ne.symm hrq)⟩)

/-! ## A new instruction -/

lemma addValue (hf : f.Flow pending) (ty : ValueType) : (f.addValue ty).2.Flow pending :=
  (Extends.addValue hf.exact ty).flow hf (hf.exact.addValue ty) (fun _ => .inr (.inr ⟨rfl, Iff.rfl⟩))
    fun _ _ hv => .inl hv

end Flow

section InsertInsn

variable {n : Nat} {op : Op} {dest : Option ValueId} {position : Position}

lemma insn_insertInsn (j : InsnId) : (f.insertInsn b n op dest position).2.insn j =
    if j.index = f.insns.size then ⟨op, dest, b, position, false⟩ else f.insn j := by
  rw [insertInsn_snd, insn_modifyBlock, insn_createInsn]

lemma block_insertInsn (c : BlockId) : (f.insertInsn b n op dest position).2.block c =
    if b = c ∧ b.index < f.blocks.size then { f.block c with
      insns := (f.block c).insns.take n ++ ⟨f.insns.size⟩ :: (f.block c).insns.drop n }
    else f.block c := by
  rw [insertInsn_snd, block_modifyBlock, block_createInsn, blocks_createInsn]

@[simp] lemma phi_insertInsn (q : PhiId) :
    (f.insertInsn b n op dest position).2.phi q = f.phi q := by
  rw [insertInsn_snd, phi_modifyBlock, phi_createInsn]

@[simp] lemma size_insns_insertInsn :
    (f.insertInsn b n op dest position).2.insns.size = f.insns.size + 1 := by
  simp [insertInsn, createInsn]

theorem Extends.insertInsn (hf : f.Exact)
    (hdest : ∀ d, dest = some d → (f.value d).definition = none) :
    f.Extends (f.insertInsn b n op dest position).2 where
  entry := rfl
  preds c := by
    rw [predecessors, block_insertInsn]
    split <;> rfl
  definition v s hs := by
    constructor
    · rw [insertInsn_snd, value_modifyBlock, definition_createInsn, if_neg, hs]
      rintro ⟨hv, -⟩
      rw [hdest v hv] at hs
      cases hs
    · cases s with
      | insn i =>
        have hlt := f.lt_insns_of_live (hf.live_of_dest ((hf.definition_iff v (.insn i)).1 hs))
        rw [siteBlock, siteBlock, insn_insertInsn, if_neg hlt.ne]
      | phi q => rw [siteBlock, siteBlock, phi_insertInsn]
  insn j hj := by rw [insn_insertInsn, if_neg hj.ne]
  insns c := by
    rw [block_insertInsn]
    split
    · rw [filter_append, filter_cons_of_neg (by simp), ← filter_append,
        take_append_drop, hf.filter_insns]
    · exact hf.filter_insns c
  size := by simp

theorem Flow.insertInsn (hf : f.Flow pending) (hb : f.HasBlock b) (hop : op.operands = [])
    (hdest : ∀ d, dest = some d → f.HasValue d ∧ (f.value d).definition = none) :
    (f.insertInsn b n op dest position).2.Flow pending := by
  refine (Extends.insertInsn hf.exact fun d hd => (hdest d hd).2).flow hf
    (hf.exact.insertInsn n position hb (by simp [hop]) hdest)
    (fun q => .inr (.inr ⟨phi_insertInsn q, Iff.rfl⟩)) fun j v hv => .inl ?_
  rw [insn_insertInsn] at hv
  split at hv
  · rw [hop] at hv
    cases hv
  · exact hv

end InsertInsn

end Dissolve.Ssa.Function
