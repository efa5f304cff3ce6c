import Dissolve.Proofs.Ssa.Orderly

/-!
# Proofs.Ssa.BlockEdits — moving and removing what blocks list

What a function looks like after the edits that take operands out of phis with an edge, remove an
instruction, and move instructions to another block (`Function.Rehomed`), as `splitBlock` and
`absorbBlock` do. All of them keep a function orderly.
-/

namespace Dissolve.Ssa.Function

open List EStateM

variable {f : Function} {b c into source : BlockId}

/-! ## Operands that go with an edge -/

section DropOperand

variable (f : Function) (n : Nat) (p : PhiId)

lemma phi_dropOperand (q : PhiId) : (f.dropOperand n p).phi q =
    if q = p then { f.phi q with operands := (f.phi q).operands.eraseIdx n } else f.phi q := by
  unfold dropOperand
  cases hn : (f.phi p).operands[n]? with
  | none =>
    have hle := List.getElem?_eq_none_iff.1 hn
    by_cases hq : q = p
    · subst hq
      simp [eraseIdx_of_length_le hle]
    · simp [hq]
  | some dropped =>
    have hlt : f.HasPhi p := by
      by_contra hle
      rw [f.phi_of_size_le (Nat.le_of_not_lt hle)] at hn
      simp at hn
    have hphi : (f.modifyPhi p fun phi =>
        { phi with operands := (f.phi p).operands.eraseIdx n }).phi q =
          if q = p then { f.phi q with operands := (f.phi q).operands.eraseIdx n } else f.phi q := by
      rw [phi_modifyPhi]
      by_cases hq : q = p
      · subst hq
        simp [hlt]
      · simp [hq, Ne.symm hq]
    dsimp only
    split
    · exact hphi
    · rw [phi_modifyValue, hphi]

@[simp] lemma insns_dropOperand : (f.dropOperand n p).insns = f.insns := by
  unfold dropOperand
  split
  · rfl
  · dsimp only
    split <;> simp

@[simp] lemma insn_dropOperand (i : InsnId) : (f.dropOperand n p).insn i = f.insn i := by
  rw [insn, insns_dropOperand, ← insn]

@[simp] lemma blocks_dropOperand : (f.dropOperand n p).blocks = f.blocks := by
  unfold dropOperand
  split
  · rfl
  · dsimp only
    split <;> simp

@[simp] lemma block_dropOperand (b : BlockId) : (f.dropOperand n p).block b = f.block b := by
  rw [block, blocks_dropOperand, ← block]

@[simp] lemma definition_dropOperand (v : ValueId) :
    ((f.dropOperand n p).value v).definition = (f.value v).definition := by
  unfold dropOperand
  split
  · rfl
  · dsimp only
    split
    · simp
    · rw [value_modifyValue]
      split <;> simp [Value.removeUser]

lemma mem_users_dropOperand (v : ValueId) (s : Site) :
    s ∈ ((f.dropOperand n p).value v).users ↔ s ∈ (f.value v).users ∧
      ¬(s = .phi p ∧ (f.phi p).operands[n]? = some v ∧ v ∉ (f.phi p).operands.eraseIdx n) := by
  unfold dropOperand
  cases hn : (f.phi p).operands[n]? with
  | none => simp
  | some dropped =>
    dsimp only
    rw [Option.some.injEq]
    split
    · rename_i hmem
      rw [value_modifyPhi]
      refine ⟨fun hs => ⟨hs, ?_⟩, fun hs => hs.1⟩
      rintro ⟨-, rfl, hnot⟩
      exact hnot hmem
    · rename_i hmem
      rw [value_modifyValue, values_modifyPhi, value_modifyPhi]
      by_cases hv : dropped = v
      · subst hv
        by_cases hlt : f.HasValue dropped
        · simp [hlt, Value.mem_users_removeUser, hmem]
        · simp [hlt, f.value_of_size_le (Nat.le_of_not_lt hlt)]
      · simp [hv]

lemma nodup_users_dropOperand {v : ValueId} (h : (f.value v).users.Nodup) :
    ((f.dropOperand n p).value v).users.Nodup := by
  unfold dropOperand
  split
  · exact h
  · dsimp only
    split
    · exact h
    · rw [value_modifyValue]
      split
      · exact List.Nodup.filter _ h
      · exact h

end DropOperand

lemma Exact.dropOperand (h : f.Exact) (n : Nat) (p : PhiId) : (f.dropOperand n p).Exact := by
  refine h.reread (fun i => ⟨(f.insn i).op, by simp, fun hr => (h.insn_gone i hr).1⟩)
    (fun q => ?_) (by simp) (by simp) (by simp) (fun v s => ?_)
    fun v => f.nodup_users_dropOperand n p (h.users_nodup v)
  · rw [phi_dropOperand]
    split
    · exact ⟨_, rfl, fun hq => by simp [h.phi_gone q hq]⟩
    · exact ⟨(f.phi q).operands, rfl, h.phi_gone q⟩
  · rw [mem_users_dropOperand, h.users_iff]
    cases s with
    | insn i => simp [Reads]
    | phi q =>
      simp only [Reads, phi_dropOperand, Site.phi.injEq]
      by_cases hq : q = p
      · subst hq
        simp only [true_and, if_true]
        constructor
        · rintro ⟨hv, hnot⟩
          by_contra hv'
          obtain ⟨k, hk⟩ := List.getElem?_of_mem hv
          by_cases hkn : k = n
          · exact hnot ⟨hkn ▸ hk, hv'⟩
          · exact hv' (mem_eraseIdx_iff_getElem?.2 ⟨k, hkn, hk⟩)
        · exact fun hv => ⟨mem_of_mem_eraseIdx hv, fun hc => hc.2 hv⟩
      · simp [hq]

lemma size_blocks_dropPredecessor (f : Function) (b : BlockId) (n : Nat) :
    (f.dropPredecessor b n).blocks.size = f.blocks.size := by
  rw [dropPredecessor, foldl_keeps fun g => g.blocks_dropOperand n, size_blocks_modifyBlock]

lemma size_blocks_dropPredecessorEntries (f : Function) (b pred : BlockId) (fuel : Nat) :
    (f.dropPredecessorEntries b pred fuel).blocks.size = f.blocks.size := by
  induction fuel generalizing f with
  | zero => rfl
  | succ fuel ih =>
    rw [dropPredecessorEntries]
    split
    · rfl
    · rw [ih, size_blocks_dropPredecessor]

lemma size_blocks_detachBlock (f : Function) (alive : BlockId → Bool) (b : BlockId) :
    (f.detachBlock alive b).blocks.size = f.blocks.size :=
  foldl_keeps (k := (·.blocks.size)) (fun g succ => g.size_blocks_dropPredecessorEntries succ b _) _ f

lemma Orderly.dropOperand (h : f.Orderly) (n : Nat) (p : PhiId) : (f.dropOperand n p).Orderly :=
  ⟨h.exact.dropOperand n p, by simpa using h.gone⟩

lemma Orderly.dropPredecessor (h : f.Orderly) (b : BlockId) (n : Nat) :
    (f.dropPredecessor b n).Orderly :=
  foldlRecOn _ _ (h.modifyBlock (fun _ => rfl) (fun _ => rfl) (fun _ => rfl) (Or.inr rfl))
    fun _ hg p _ => hg.dropOperand n p

lemma Orderly.dropPredecessorEntries (h : f.Orderly) (b pred : BlockId)
    (fuel : Nat) : (f.dropPredecessorEntries b pred fuel).Orderly := by
  induction fuel generalizing f with
  | zero => exact h
  | succ fuel ih =>
    rw [Function.dropPredecessorEntries]
    split
    · exact h
    · exact ih (h.dropPredecessor b _)

lemma Orderly.detachBlock (h : f.Orderly) (alive : BlockId → Bool) (b : BlockId) :
    (f.detachBlock alive b).Orderly :=
  foldlRecOn _ _ h fun _ hg succ _ => hg.dropPredecessorEntries succ b _

/-! ## Removing an instruction -/

section Remove

variable {h : Function} {i j : InsnId}

def withoutInsn (f : Function) (i : InsnId) : Function :=
  ((((f.setDest (f.insn i).dest none).removeUsers (.insn i) (f.insn i).op.operands).modifyBlock
    (f.insn i).block fun block => { block with insns := block.insns.filter fun j => j ≠ i }).modifyInsn
      i (·.gone))

lemma removeInsn_cases (hlive : f.LiveInsn i) :
    ((removeInsn i).run f = .ok () (withoutInsn f i) ∧
        ∀ d, (f.insn i).dest = some d → (f.value d).users = []) ∨
      ∃ e, (removeInsn i).run f = .error e f := by
  unfold removeInsn
  rw [Edit.run_bind_ok (run_get f)]
  simp only [hlive, Bool.false_eq_true, if_false]
  cases hdest : (f.insn i).dest with
  | none => exact Or.inl ⟨by rw [withoutInsn, hdest]; rfl, fun d hd => by cases hd⟩
  | some d =>
    by_cases husers : (f.value d).users.length > 0
    · exact Or.inr ⟨_, by simp only [husers, if_true]; rfl⟩
    · refine Or.inl ⟨?_, fun d' hd => ?_⟩
      · simp only [husers, if_false]
        rw [withoutInsn, hdest]
        rfl
      · obtain rfl := Option.some.inj hd
        exact eq_nil_of_length_eq_zero (by omega)

lemma removeInsn_removed (hgone : (f.insn i).removed = true) : (removeInsn i).run f = .ok () f := by
  unfold removeInsn
  rw [Edit.run_bind_ok (run_get f)]
  simp only [hgone, if_true]
  rfl

lemma removeInsn_ok (hlive : f.LiveInsn i) (hrun : (removeInsn i).run f = .ok () h) :
    h = withoutInsn f i ∧ ∀ d, (f.insn i).dest = some d → (f.value d).users = [] := by
  rcases removeInsn_cases hlive with ⟨hok, hunread⟩ | ⟨e, herror⟩
  · rw [hok] at hrun
    cases hrun
    exact ⟨rfl, hunread⟩
  · rw [herror] at hrun
    cases hrun

lemma block_withoutInsn (hlt : (f.insn i).block.index < f.blocks.size) (b : BlockId) :
    (withoutInsn f i).block b = if (f.insn i).block = b then
      { f.block b with insns := (f.block b).insns.filter fun j => j ≠ i } else f.block b := by
  simp [withoutInsn, block_modifyBlock, hlt]

lemma insn_withoutInsn (hj : j ≠ i) : (withoutInsn f i).insn j = f.insn j := by
  simp [withoutInsn, insn_modifyInsn, Ne.symm hj]

lemma insn_withoutInsn_self (hlive : f.LiveInsn i) :
    (withoutInsn f i).insn i = (f.insn i).gone := by
  simp [withoutInsn, insn_modifyInsn, f.lt_insns_of_live hlive]

lemma phi_withoutInsn (q : PhiId) : (withoutInsn f i).phi q = f.phi q := by
  simp [withoutInsn]

lemma removed_of_removeInsn (hrun : (removeInsn i).run f = .ok () h) :
    (h.insn i).removed = true := by
  cases hlive : (f.insn i).removed with
  | false =>
    rw [(removeInsn_ok hlive hrun).1, insn_withoutInsn_self hlive]
    rfl
  | true =>
    rw [removeInsn_removed hlive] at hrun
    cases hrun
    exact hlive

lemma Exact.block_withoutInsn (hf : f.Exact) (hlive : f.LiveInsn i) (b : BlockId) :
    (f.withoutInsn i).block b =
      { f.block b with insns := (f.block b).insns.filter fun j => j ≠ i } := by
  have hmem := (hf.insns_iff _ i).2 ⟨hlive, rfl⟩
  have hlt : (f.insn i).block.index < f.blocks.size := by
    by_contra hle
    rw [f.block_of_size_le (Nat.le_of_not_lt hle)] at hmem
    simp [Block.gone] at hmem
  rw [Function.block_withoutInsn hlt]
  split
  · rfl
  · rename_i hb
    have hfilter : (f.block b).insns.filter (fun j => j ≠ i) = (f.block b).insns := by
      rw [filter_eq_self]
      intro j hj
      refine decide_eq_true fun heq => hb ?_
      exact ((hf.insns_iff b i).1 (heq ▸ hj)).2
    rw [hfilter]

lemma Exact.withoutInsn (hf : f.Exact) (hlive : f.LiveInsn i) : (f.withoutInsn i).Exact := by
  refine Exact.shed (f := f) (d := (· = .insn i)) (fun j => ?_) (by simp [phi_withoutInsn]) hf
    (by simp [hf.block_withoutInsn hlive])
    (fun b => by simpa [hf.block_withoutInsn hlive] using (hf.insns_nodup b).filter _)
    (by simp [hf.block_withoutInsn hlive])
    (by simpa [hf.block_withoutInsn hlive] using hf.phis_nodup) (fun v s => ?_) (fun v s => ?_)
    fun v => ?_
  · by_cases hj : j = i
    · rw [if_pos (congrArg _ hj), hj, insn_withoutInsn_self hlive]
    · rw [if_neg (mt Site.insn.inj hj), insn_withoutInsn hj]
  · have hdef : ((f.withoutInsn i).value v).definition =
        if (f.insn i).dest = some v ∧ v.index < f.values.size then none
        else (f.value v).definition := by
      simp [Function.withoutInsn, definition_removeUsers, definition_setDest]
    rw [hdef]
    by_cases hv : (f.insn i).dest = some v
    · have hi := (hf.definition_iff v (.insn i)).2 hv
      simp [hv, f.lt_values_of_definition hi, hi, eq_comm]
    · rw [if_neg fun hand => hv hand.1, iff_self_and]
      rintro hs rfl
      exact hv ((hf.definition_iff v _).1 hs)
  · have husers : s ∈ ((f.withoutInsn i).value v).users ↔
        s ∈ (f.value v).users ∧ ¬(s = .insn i ∧ v ∈ (f.insn i).op.operands) := by
      simp only [Function.withoutInsn, value_modifyInsn, value_modifyBlock, mem_users_removeUsers,
        users_setDest]
    rw [husers]
    refine and_congr_right fun hs => not_congr (and_iff_left_of_imp ?_)
    rintro rfl
    exact (hf.users_iff v _).1 hs
  · have hnodup : ((f.setDest (f.insn i).dest none).value v).users.Nodup := by
      rw [users_setDest]
      exact hf.users_nodup v
    exact nodup_users_removeUsers _ _ _ _ hnodup

lemma Orderly.withoutInsn (hf : f.Orderly) (hlive : f.LiveInsn i) : (f.withoutInsn i).Orderly := by
  refine ⟨hf.exact.withoutInsn hlive, fun b hb => ?_⟩
  rw [hf.exact.block_withoutInsn hlive] at hb ⊢
  rw [hf.gone b hb]
  rfl

end Remove

/-! ## Instructions that change their block -/

section Move

section

variable (f : Function) (is : List InsnId)

lemma insn_moveInsns (b : BlockId) (i : InsnId) :
    (f.moveInsns is b).insn i =
      if i ∈ is ∧ i.index < f.insns.size then { f.insn i with block := b } else f.insn i := by
  induction is generalizing f with
  | nil => simp [moveInsns]
  | cons j is ih =>
    have hstep : f.moveInsns (j :: is) b =
        (f.modifyInsn j fun insn => { insn with block := b }).moveInsns is b := rfl
    rw [hstep, ih, insn_modifyInsn, size_insns_modifyInsn]
    by_cases hj : j = i
    · subst hj
      by_cases hlt : f.HasInsn j
      · by_cases hi : j ∈ is <;> simp [hi, hlt]
      · simp [hlt]
    · simp [hj, Ne.symm hj]

@[simp] lemma blocks_moveInsns (b : BlockId) : (f.moveInsns is b).blocks = f.blocks :=
  foldl_keeps (k := blocks) (fun _ _ => blocks_modifyInsn ..) is f

@[simp] lemma block_moveInsns (b c : BlockId) : (f.moveInsns is b).block c = f.block c := by
  rw [block, blocks_moveInsns, ← block]

@[simp] lemma phis_moveInsns (b : BlockId) : (f.moveInsns is b).phis = f.phis :=
  foldl_keeps (k := phis) (fun _ _ => phis_modifyInsn ..) is f

@[simp] lemma values_moveInsns (b : BlockId) : (f.moveInsns is b).values = f.values :=
  foldl_keeps (k := values) (fun _ _ => values_modifyInsn ..) is f

@[simp] lemma size_insns_moveInsns (b : BlockId) : (f.moveInsns is b).insns.size = f.insns.size :=
  foldl_keeps (k := (·.insns.size)) (fun _ _ => size_insns_modifyInsn ..) is f

end

lemma block_replacePredecessors (f : Function) (blocks : List BlockId) {old new : BlockId}
    (hne : old ≠ new) (c : BlockId) :
    (f.replacePredecessors blocks old new).block c = if c ∈ blocks ∧ c.index < f.blocks.size then
      { f.block c with preds := (f.block c).preds.map fun p => if p = old then new else p }
    else f.block c := by
  induction blocks generalizing f with
  | nil => simp [replacePredecessors]
  | cons a blocks ih =>
    have hstep : f.replacePredecessors (a :: blocks) old new =
        (f.replacePredecessor a old new).2.replacePredecessors blocks old new := rfl
    have htwice : ((fun p => if p = old then new else p) ∘ fun p => if p = old then new else p) =
        fun p => if p = old then new else p := by
      funext p
      by_cases hp : p = old <;> simp [hp, Ne.symm hne]
    have hsize : (f.replacePredecessor a old new).2.blocks.size = f.blocks.size := by
      simp [replacePredecessor]
    have hblock : (f.replacePredecessor a old new).2.block c =
        if a = c ∧ a.index < f.blocks.size then { f.block c with
          preds := (f.block c).preds.map fun p => if p = old then new else p } else f.block c :=
      block_modifyBlock _ _ _ _
    rw [hstep, ih, hsize, hblock]
    by_cases ha : a = c
    · subst ha
      by_cases hlt : f.HasBlock a
      · by_cases hc : a ∈ blocks
        · simp only [hc, hlt, and_self, if_true, mem_cons_self, map_map, htwice]
        · simp [hc, hlt]
      · simp [hlt]
    · simp [ha, Ne.symm ha]

lemma insns_replacePredecessors (f : Function) (blocks : List BlockId) (old new : BlockId) :
    (f.replacePredecessors blocks old new).insns = f.insns ∧
      (f.replacePredecessors blocks old new).phis = f.phis ∧
      (f.replacePredecessors blocks old new).values = f.values ∧
      (f.replacePredecessors blocks old new).blocks.size = f.blocks.size := by
  induction blocks generalizing f with
  | nil => exact ⟨rfl, rfl, rfl, rfl⟩
  | cons a blocks ih =>
    obtain ⟨hi, hp, hv, hb⟩ := ih (f.replacePredecessor a old new).2
    exact ⟨hi, hp, hv, hb.trans (by simp [replacePredecessor])⟩

/-- The instructions belong to other blocks, and the blocks list them there. -/
structure Rehomed (f g : Function) (home : InsnId → BlockId) : Prop where
  insn : ∀ i, g.insn i = { f.insn i with block := home i }
  phi : ∀ p, g.phi p = f.phi p
  value : ∀ v, g.value v = f.value v
  insns_iff : ∀ b i, i ∈ (g.block b).insns ↔ (f.insn i).removed = false ∧ home i = b
  insns_nodup : ∀ b, (g.block b).insns.Nodup
  phis : ∀ b, (g.block b).phis = (f.block b).phis

lemma Exact.rehome {g : Function} {home : InsnId → BlockId} (hf : f.Exact)
    (h : f.Rehomed g home) : g.Exact := by
  have hdef : ∀ v s, g.Defines v s ↔ f.Defines v s := by
    rintro v (i | p) <;> simp [Defines, h.insn, h.phi]
  have hread : ∀ v s, g.Reads v s ↔ f.Reads v s := by
    rintro v (i | p) <;> simp [Reads, h.insn, h.phi]
  refine ⟨?_, ?_, ?_, h.insns_nodup, ?_, ?_, ?_, ?_, ?_⟩
  · simpa only [h.insn] using hf.insn_gone
  · simpa only [h.phi] using hf.phi_gone
  · simpa only [h.insn] using h.insns_iff
  · simpa only [h.phi, h.phis] using hf.phis_iff
  · simpa only [h.phis] using hf.phis_nodup
  · simpa only [h.value, hdef] using hf.definition_iff
  · simpa only [h.value, hread] using hf.users_iff
  · simpa only [h.value] using hf.users_nodup

lemma block_size (f : Function) : f.block ⟨f.blocks.size⟩ = Block.gone :=
  f.block_of_size_le (Nat.le_refl f.blocks.size)

/-! ### Splitting a block -/

/-- The instructions of a block from a place on stand in a new block. -/
def splitAt (f : Function) (b : BlockId) (n : Nat) : Function :=
  (((f.addBlock.2.modifyBlock b fun block => { block with insns := block.insns.take n }).moveInsns
    ((f.block b).insns.drop n) ⟨f.blocks.size⟩).modifyBlock ⟨f.blocks.size⟩ fun block =>
      { block with insns := (f.block b).insns.drop n }).replacePredecessors
        (f.normalSuccessors b) b ⟨f.blocks.size⟩

lemma splitBlock_plain (h : (f.block b).handlers = []) (n : Nat) :
    (splitBlock b n).run f = .ok ⟨f.blocks.size⟩ (f.splitAt b n) := by
  unfold splitBlock
  rw [Edit.run_bind_ok (run_get f)]
  simp only [h, isEmpty_nil, Bool.not_true, Bool.false_eq_true, if_false]
  rfl

lemma splitBlock_covered (h : (f.block b).handlers ≠ []) (n : Nat) :
    (splitBlock b n).run f = .error (.malformed (.splitCovered b)) f := by
  unfold splitBlock
  rw [Edit.run_bind_ok (run_get f)]
  simp only [isEmpty_eq_false_iff.2 h, Bool.not_false, if_true]
  rfl

section SplitAt

variable (f : Function) (b : BlockId) (n : Nat)

@[simp] lemma phis_splitAt : (f.splitAt b n).phis = f.phis := by
  rw [splitAt, (insns_replacePredecessors _ _ _ _).2.1, phis_modifyBlock, phis_moveInsns,
    phis_modifyBlock]
  rfl

@[simp] lemma values_splitAt : (f.splitAt b n).values = f.values := by
  rw [splitAt, (insns_replacePredecessors _ _ _ _).2.2.1, values_modifyBlock, values_moveInsns,
    values_modifyBlock]
  rfl

@[simp] lemma size_insns_splitAt : (f.splitAt b n).insns.size = f.insns.size := by
  rw [splitAt, (insns_replacePredecessors _ _ _ _).1, insns_modifyBlock, size_insns_moveInsns,
    insns_modifyBlock]
  rfl

@[simp] lemma size_blocks_splitAt : (f.splitAt b n).blocks.size = f.blocks.size + 1 := by
  rw [splitAt, (insns_replacePredecessors _ _ _ _).2.2.2, size_blocks_modifyBlock, blocks_moveInsns,
    size_blocks_modifyBlock]
  simp [addBlock]

variable {f b}

lemma Exact.insn_splitAt (h : f.Exact) (i : InsnId) : (f.splitAt b n).insn i =
    { f.insn i with
      block := if i ∈ (f.block b).insns.drop n then ⟨f.blocks.size⟩ else (f.insn i).block } := by
  rw [splitAt, insn, (insns_replacePredecessors _ _ _ _).1, ← insn, insn_modifyBlock, insn_moveInsns,
    insn_modifyBlock, insns_modifyBlock]
  by_cases hi : i ∈ (f.block b).insns.drop n
  · have hlt := f.lt_insns_of_live ((h.insns_iff b i).1 (mem_of_mem_drop hi)).1
    rw [if_pos ⟨hi, hlt⟩, if_pos hi]
    rfl
  · rw [if_neg fun hand => hi hand.1, if_neg hi]
    rfl

lemma block_splitAt_new (hlt : f.HasBlock b) :
    (f.splitAt b n).block ⟨f.blocks.size⟩ = { insns := (f.block b).insns.drop n } := by
  have hne : b ≠ ⟨f.blocks.size⟩ := fun heq => by simp [heq] at hlt
  rw [splitAt, block_replacePredecessors _ _ hne, block_modifyBlock, block_moveInsns,
    block_modifyBlock_ne _ _ hne, block_addBlock]
  simp [addBlock]

lemma block_splitAt (hlt : f.HasBlock b) (hc : c.index ≠ f.blocks.size) :
    (f.splitAt b n).block c = { f.block c with
      insns := if c = b then (f.block b).insns.take n else (f.block c).insns
      preds := if c ∈ f.normalSuccessors b then
        (f.block c).preds.map fun p => if p = b then ⟨f.blocks.size⟩ else p
      else (f.block c).preds } := by
  have hne : b ≠ ⟨f.blocks.size⟩ := fun heq => by simp [heq] at hlt
  have hnew : (⟨f.blocks.size⟩ : BlockId) ≠ c := fun heq => hc (by rw [← heq])
  have hadd : f.addBlock.2.block c = f.block c := by rw [block_addBlock, if_neg hc]
  have hsize : f.addBlock.2.blocks.size = f.blocks.size + 1 := by simp [addBlock]
  have hcut : (f.addBlock.2.modifyBlock b fun block =>
      { block with insns := block.insns.take n }).block c =
        { f.block c with insns := if c = b then (f.block b).insns.take n else (f.block c).insns } := by
    rw [block_modifyBlock, hadd, hsize]
    by_cases hb : b = c
    · subst hb
      simp [Nat.lt_succ_of_lt hlt]
    · simp [hb, Ne.symm hb]
  rw [splitAt, block_replacePredecessors _ _ hne, block_modifyBlock_ne _ _ hnew, block_moveInsns,
    hcut, size_blocks_modifyBlock, blocks_moveInsns,
    size_blocks_modifyBlock, hsize]
  by_cases hin : c.index < f.blocks.size + 1
  · by_cases hmem : c ∈ f.normalSuccessors b <;> simp [hin, hmem]
  · rw [if_neg fun hand => hin hand.2, f.block_of_size_le (by omega)]
    simp [Block.gone]

lemma Orderly.splitAt (h : f.Orderly) (hlt : f.HasBlock b) : (f.splitAt b n).Orderly := by
  have hf := h.exact
  have hapart : (f.block b).insns.take n ++ (f.block b).insns.drop n = (f.block b).insns :=
    take_append_drop n _
  have hnodup := hf.insns_nodup b
  rw [← hapart, nodup_append] at hnodup
  have hmem : ∀ i, i ∈ (f.block b).insns.drop n → f.LiveInsn i ∧ (f.insn i).block = b :=
    fun i hi => (hf.insns_iff b i).1 (mem_of_mem_drop hi)
  refine ⟨hf.rehome
      ⟨hf.insn_splitAt n, fun p => ?_, fun v => ?_, fun c i => ?_, fun c => ?_, fun c => ?_⟩,
    fun c hc => ?_⟩
  · rw [phi, phis_splitAt, ← phi]
  · rw [value, values_splitAt, ← value]
  · by_cases hc : c.index = f.blocks.size
    · obtain rfl : c = ⟨f.blocks.size⟩ := BlockId.eq_iff.2 hc
      rw [block_splitAt_new n hlt]
      refine ⟨fun hi => ⟨(hmem i hi).1, if_pos hi⟩, fun hand => ?_⟩
      by_contra hi
      rw [if_neg hi] at hand
      have hold := (hf.insns_iff _ i).2 hand
      rw [block_size] at hold
      simp [Block.gone] at hold
    · rw [block_splitAt n hlt hc]
      have hnew : (⟨f.blocks.size⟩ : BlockId) ≠ c := fun heq => hc (by rw [← heq])
      by_cases hi : i ∈ (f.block b).insns.drop n
      · simp only [hi, if_true, hnew, and_false, iff_false]
        split
        · exact fun htake => hnodup.2.2 i htake i hi rfl
        · rename_i hcb
          exact fun hold => hcb (((hf.insns_iff c i).1 hold).2.symm.trans (hmem i hi).2)
      · simp only [hi, if_false, ← hf.insns_iff]
        split
        · rename_i hcb
          rw [hcb]
          refine ⟨mem_of_mem_take, fun hold => ?_⟩
          rw [← hapart, mem_append] at hold
          exact hold.resolve_right hi
        · rfl
  · by_cases hc : c.index = f.blocks.size
    · obtain rfl : c = ⟨f.blocks.size⟩ := BlockId.eq_iff.2 hc
      rw [block_splitAt_new n hlt]
      exact hnodup.2.1
    · rw [block_splitAt n hlt hc]
      dsimp only
      split
      · exact hnodup.1
      · exact hf.insns_nodup c
  · by_cases hc : c.index = f.blocks.size
    · obtain rfl : c = ⟨f.blocks.size⟩ := BlockId.eq_iff.2 hc
      rw [block_splitAt_new n hlt, block_size]
      rfl
    · rw [block_splitAt n hlt hc]
  · by_cases hnew : c.index = f.blocks.size
    · obtain rfl : c = ⟨f.blocks.size⟩ := BlockId.eq_iff.2 hnew
      rw [block_splitAt_new n hlt] at hc
      simp at hc
    · rw [block_splitAt n hlt hnew] at hc ⊢
      have hgone := h.gone c hc
      by_cases hcb : c = b
      · subst hcb
        simp [hgone, Block.gone]
      · simp [hgone, hcb, Block.gone]

end SplitAt

/-! ### Absorbing a block -/

/-- The instructions of a block stand at the end of another one, and the block is removed. -/
def absorb (f : Function) (into source : BlockId) : Function :=
  ((((f.replacePredecessors (f.normalSuccessors source) source into).modifyBlock source fun block =>
    { block with insns := [] }).moveInsns (f.block source).insns into).modifyBlock into fun block =>
      { block with insns := block.insns ++ (f.block source).insns }).modifyBlock source fun _ => .gone

lemma absorbBlock_run (h : (f.block source).phis = []) :
    (absorbBlock into source).run f = .ok () (f.absorb into source) := by
  unfold absorbBlock
  rw [Edit.run_bind_ok (run_get f)]
  simp only [h, isEmpty_nil, Bool.not_true, Bool.false_eq_true, if_false]
  rfl

lemma absorbBlock_refused (h : (f.block source).phis ≠ []) :
    (absorbBlock into source).run f = .error (.malformed (.absorbWithPhis source)) f := by
  unfold absorbBlock
  rw [Edit.run_bind_ok (run_get f)]
  simp only [isEmpty_eq_false_iff.2 h, Bool.not_false, if_true]
  rfl

section Absorb

variable (f : Function) (into source : BlockId)

@[simp] lemma phis_absorb : (f.absorb into source).phis = f.phis := by
  rw [absorb, phis_modifyBlock, phis_modifyBlock, phis_moveInsns, phis_modifyBlock,
    (insns_replacePredecessors _ _ _ _).2.1]

@[simp] lemma values_absorb : (f.absorb into source).values = f.values := by
  rw [absorb, values_modifyBlock, values_modifyBlock, values_moveInsns, values_modifyBlock,
    (insns_replacePredecessors _ _ _ _).2.2.1]

variable {f into source}

lemma Exact.insn_absorb (h : f.Exact) (i : InsnId) : (f.absorb into source).insn i =
    { f.insn i with block := if i ∈ (f.block source).insns then into else (f.insn i).block } := by
  have hsame : (f.replacePredecessors (f.normalSuccessors source) source into).insn i = f.insn i := by
    rw [insn, (insns_replacePredecessors _ _ _ _).1, ← insn]
  rw [absorb, insn_modifyBlock, insn_modifyBlock, insn_moveInsns, insn_modifyBlock, insns_modifyBlock,
    hsame, (insns_replacePredecessors _ _ _ _).1]
  by_cases hi : i ∈ (f.block source).insns
  · have hlt := f.lt_insns_of_live ((h.insns_iff source i).1 hi).1
    simp [hi, hlt]
  · simp [hi]

lemma block_absorb_source : (f.absorb into source).block source = Block.gone := by
  rw [absorb, block_modifyBlock]
  split
  · rfl
  · rename_i hlt
    exact block_of_size_le _ (by simpa using hlt)

lemma block_absorb (hne : source ≠ into) (hc : c ≠ source) :
    (f.absorb into source).block c = { f.block c with
      insns := if c = into ∧ into.index < f.blocks.size then
        (f.block c).insns ++ (f.block source).insns else (f.block c).insns
      preds := if c ∈ f.normalSuccessors source then
        (f.block c).preds.map fun p => if p = source then into else p else (f.block c).preds } := by
  have hstep : ((f.replacePredecessors (f.normalSuccessors source) source into).modifyBlock source
      fun block => { block with insns := [] }).block c = { f.block c with
        preds := if c ∈ f.normalSuccessors source then
          (f.block c).preds.map fun p => if p = source then into else p else (f.block c).preds } := by
    rw [block_modifyBlock_ne _ _ (Ne.symm hc), block_replacePredecessors _ _ hne]
    by_cases hlt : f.HasBlock c
    · by_cases hmem : c ∈ f.normalSuccessors source <;> simp [hlt, hmem]
    · simp [hlt, f.block_of_size_le (Nat.le_of_not_lt hlt), Block.gone]
  rw [absorb, block_modifyBlock_ne _ _ (Ne.symm hc), block_modifyBlock, block_moveInsns, hstep,
    blocks_moveInsns, size_blocks_modifyBlock, (insns_replacePredecessors _ _ _ _).2.2.2]
  by_cases hin : into = c
  · subst hin
    by_cases hlt : f.HasBlock into <;> simp [hlt]
  · simp [hin, Ne.symm hin]

lemma Orderly.absorb (h : f.Orderly) (hne : source ≠ into) (hinto : f.LiveBlock into)
    (hphis : (f.block source).phis = []) : (f.absorb into source).Orderly := by
  have hf := h.exact
  have hlt := f.lt_blocks_of_live hinto
  have hmem : ∀ i, i ∈ (f.block source).insns ↔ f.LiveInsn i ∧ (f.insn i).block = source :=
    hf.insns_iff source
  refine ⟨hf.rehome
      ⟨hf.insn_absorb, fun p => ?_, fun v => ?_, fun c i => ?_, fun c => ?_, fun c => ?_⟩,
    fun c hc => ?_⟩
  · rw [phi, phis_absorb, ← phi]
  · rw [value, values_absorb, ← value]
  · by_cases hc : c = source
    · subst hc
      rw [block_absorb_source]
      simp only [Block.gone, not_mem_nil, false_iff]
      split
      · exact fun hand => hne hand.2.symm
      · rename_i hi
        exact fun hand => hi ((hmem i).2 hand)
    · rw [block_absorb hne hc]
      by_cases hin : c = into
      · subst hin
        simp only [hlt, and_self, if_true, mem_append]
        by_cases hi : i ∈ (f.block source).insns
        · simp [hi, ((hmem i).1 hi).1]
        · simp [hi, hf.insns_iff]
      · simp only [hin, false_and, if_false]
        by_cases hi : i ∈ (f.block source).insns
        · simp only [hi, if_true, Ne.symm hin, and_false, iff_false]
          exact fun hold => hc (((hf.insns_iff c i).1 hold).2.symm.trans ((hmem i).1 hi).2)
        · simp [hi, hf.insns_iff]
  · by_cases hc : c = source
    · rw [hc, block_absorb_source]
      exact nodup_nil
    · rw [block_absorb hne hc]
      dsimp only
      split
      · refine nodup_append.2 ⟨hf.insns_nodup c, hf.insns_nodup source, ?_⟩
        rintro i hi j hj rfl
        exact hc (((hf.insns_iff c i).1 hi).2.symm.trans ((hmem i).1 hj).2)
      · exact hf.insns_nodup c
  · by_cases hc : c = source
    · rw [hc, block_absorb_source, hphis]
      rfl
    · rw [block_absorb hne hc]
  · by_cases hcs : c = source
    · rw [hcs, block_absorb_source]
    · rw [block_absorb hne hcs] at hc ⊢
      have hgone := h.gone c hc
      have hin : c ≠ into := fun heq => by
        rw [heq] at hc
        simp [hinto] at hc
      simp [hgone, hin, Block.gone]

end Absorb

end Move

end Dissolve.Ssa.Function
