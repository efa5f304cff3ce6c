import Dissolve.Proofs.Lift.Ranges

/-!
# Proofs.Lift.Skeleton — the blocks before any range is lifted

Before a range is lifted there is a block for every range that control can reach, and every block
knows the blocks it is entered from. `Skeleton` says how blocks and ranges correspond. It looks at
the edges and the numbering of the blocks only, so it holds at every later stage too
(`Skeleton.later`).

Main statement: `createBlocks` builds the skeleton of a layout, on which nothing has been lifted
(`createBlocks_ensures`).
-/

namespace Dissolve.Lift

open List Ssa.Function
open Code (Instruction)
open Ssa (Function Handler)
open Progress

variable {p p' : Progress} {c : BlockId} {j k : Nat} {bs : List BlockId} {ks seen order : List Nat}
  {r : Range}

/-! ## Functions without code -/

structure Bare (f : Function) : Prop where
  values : f.values = #[]
  code : f.insns = #[]
  phis : f.phis = #[]
  block_phis : ∀ b, (f.block b).phis = []
  block_insns : ∀ b, (f.block b).insns = []
  live : ∀ b, b.index < f.blocks.size → (f.block b).removed = false
  preds_lt : ∀ b c, c ∈ f.predecessors b → c.index < f.blocks.size

namespace Bare

variable {f : Function}

lemma value_eq (h : Bare f) (v : ValueId) : f.value v = default :=
  f.value_of_size_le (by simp [h.values])

lemma insn_eq (h : Bare f) (i : InsnId) : f.insn i = default :=
  f.insn_of_size_le (by simp [h.code])

lemma phi_eq (h : Bare f) (q : PhiId) : f.phi q = default :=
  f.phi_of_size_le (by simp [h.phis])

lemma empty (method : MethodRef) (isStatic : Bool) : Bare (Function.empty method isStatic) := by
  have hblock : ∀ b, (Function.empty method isStatic).block b = Ssa.Block.gone := fun b =>
    block_of_size_le _ (Nat.zero_le _)
  refine ⟨rfl, rfl, rfl, ?_, ?_, ?_, ?_⟩
  · simp [hblock, Ssa.Block.gone]
  · simp [hblock, Ssa.Block.gone]
  · exact fun b hb => absurd hb (Nat.not_lt_zero _)
  · simp [Function.predecessors, hblock, Ssa.Block.gone]

lemma exact (h : Bare f) : f.Exact := by
  refine ⟨?_, ?_, ?_, ?_, ?_, ?_, ?_, ?_, ?_⟩
  · simp [h.insn_eq]
  · simp [h.phi_eq]
  · simp [h.insn_eq, h.block_insns]
  · simp [h.block_insns]
  · simp [h.phi_eq, h.block_phis]
  · simp [h.block_phis]
  · rintro v (i | q) <;> simp [h.value_eq, h.insn_eq, h.phi_eq, Function.Defines]
  · rintro v (i | q) <;> simp [h.value_eq, h.insn_eq, h.phi_eq, Function.Reads, Ssa.Op.operands]
  · simp [h.value_eq]

lemma flow (h : Bare f) (hentry : f.predecessors f.entry = []) {pending : PhiId → Prop}
    (hpending : ∀ q, ¬pending q) : f.Flow pending := by
  refine ⟨h.exact, hentry, fun q hq => (hpending q hq).elim, ?_, ?_, ?_, ?_⟩
  · simp [h.phi_eq]
  · simp [h.phi_eq]
  · simp [h.block_insns]
  · rintro v (i | q) <;> simp [h.insn_eq, h.phi_eq, Function.Reads, Ssa.Op.operands]

lemma addBlock (h : Bare f) : Bare f.addBlock.2 := by
  have hsize : f.addBlock.2.blocks.size = f.blocks.size + 1 := by simp [Function.addBlock]
  refine ⟨h.values, h.code, h.phis, ?_, ?_, ?_, ?_⟩
  · intro b
    rw [block_addBlock]
    split
    · rfl
    · exact h.block_phis b
  · intro b
    rw [block_addBlock]
    split
    · rfl
    · exact h.block_insns b
  · intro b hb
    rw [block_addBlock]
    split
    · rfl
    · exact h.live b (by omega)
  · intro b c hc
    rw [Function.predecessors, block_addBlock] at hc
    split at hc
    · simp at hc
    · exact (h.preds_lt b c hc).trans (by omega)

/-- Where nothing is recorded, nothing is wrong. -/
lemma sound (h : Bare p.func) (hentry : p.func.predecessors p.func.entry = [])
    (hreach : ∀ b, p.func.HasBlock b → ∃ t, p.func.Trail (b :: t)) (hheld : p.held = {})
    (hwaiting : p.waiting = {}) (hreplaced : p.replaced = {}) (hclosed : p.closed = [p.func.entry]) :
    p.Sound [] ∧ p.Honest [] := by
  have hwait : ∀ b, p.waitingAt b = [] := by
    intro b
    rw [waitingAt, hwaiting]
    rfl
  have hgap : ∀ b x q, ¬p.IsGap [] b x q := by
    intro b x q
    simp [IsGap, hwait]
  have hholds : ∀ b x v, ¬p.Holds b x v := by
    rintro b x v ⟨w, hw, -⟩
    rw [hheld] at hw
    exact absurd (show none = some w from hw) (by simp)
  have hget : ∀ v w, p.replaced.get? v ≠ some w := by
    intro v w hw
    rw [hreplaced] at hw
    exact absurd (show none = some w from hw) (by simp)
  refine ⟨⟨h.flow hentry ?_, ?_, ?_, ?_, ?_, h.live, hreach, h.preds_lt, ?_, ?_, ?_, ?_, ?_, ?_⟩,
    fun b x v _ hv => absurd hv (hholds b x v)⟩
  · rintro q ⟨b, x, hq⟩
    exact hgap b x q hq
  · exact fun b x q hq => absurd hq (hgap b x q)
  · exact nodup_nil
  · simp [hwait]
  · simp
  · rw [hreplaced]
    exact Assoc.grounded_empty
  · exact fun v w hw => absurd hw (hget v w)
  · exact fun v w hw => absurd hw (hget v w)
  · exact fun b x v hv => absurd hv (hholds b x v)
  · exact fun b _ => hwait b
  · intro b hb c hc
    rw [hclosed, mem_singleton] at hb
    rw [hb, hentry] at hc
    cases hc

end Bare

/-- The function has got edges and handlers and nothing else. -/
structure Links (f g : Function) : Prop where
  bare : Bare f → Bare g
  size_blocks : g.blocks.size = f.blocks.size

namespace Links

variable {f g k : Function}

lemma refl (f : Function) : Links f f := ⟨id, rfl⟩

lemma trans (h : Links f g) (h' : Links g k) : Links f k :=
  ⟨h'.bare ∘ h.bare, h'.size_blocks.trans h.size_blocks⟩

lemma modifyBlock (f : Function) (b : BlockId) {change : Ssa.Block → Ssa.Block}
    (hphis : ∀ block, (change block).phis = block.phis)
    (hinsns : ∀ block, (change block).insns = block.insns)
    (hremoved : ∀ block, (change block).removed = block.removed)
    (hpreds : ∀ block, ∀ c ∈ (change block).preds, c ∈ block.preds ∨ f.HasBlock c) :
    Links f (f.modifyBlock b change) := by
  refine ⟨fun h => ⟨h.values, h.code, h.phis, ?_, ?_, ?_, ?_⟩, by simp⟩
  · intro d
    rw [block_modifyBlock]
    split
    · rw [hphis, h.block_phis d]
    · exact h.block_phis d
  · intro d
    rw [block_modifyBlock]
    split
    · rw [hinsns, h.block_insns d]
    · exact h.block_insns d
  · intro d hd
    rw [size_blocks_modifyBlock] at hd
    rw [block_modifyBlock]
    split
    · rw [hremoved, h.live d hd]
    · exact h.live d hd
  · intro d c hc
    rw [size_blocks_modifyBlock]
    rw [Function.predecessors, block_modifyBlock] at hc
    split at hc
    · exact (hpreds _ c hc).elim (h.preds_lt d c) id
    · exact h.preds_lt d c hc

lemma addPredecessor (f : Function) (target : BlockId) {source : BlockId}
    (hsource : source.index < f.blocks.size) : Links f (f.addPredecessor target source) := by
  refine modifyBlock f target (fun _ => rfl) (fun _ => rfl) (fun _ => rfl) fun block c hc => ?_
  rcases mem_append.1 hc with hc | hc
  · exact .inl hc
  · rw [mem_singleton.1 hc]
    exact .inr hsource

lemma addHandler (f : Function) (b : BlockId) (handler : Handler) :
    Links f (f.addHandler b handler) :=
  modifyBlock f b (fun _ => rfl) (fun _ => rfl) (fun _ => rfl) fun _ _ hc => .inl hc

end Links

/-! ## Edges -/

/-- The edges out of a block that are recorded lead to the given blocks. -/
def Sends (f : Function) (b : BlockId) (targets : List BlockId) : Prop :=
  ∀ c, (f.predecessors c).count b = targets.count c

def Catches (f : Function) (b : BlockId) (targets : List BlockId) : Prop :=
  (f.block b).handlers.map Handler.target = targets

section Edges

variable {f : Function} {b source target : BlockId} {targets : List BlockId}

lemma Sends.nil (hpreds : ∀ c, f.predecessors c = []) : Sends f b [] := by
  intro c
  simp [hpreds c]

lemma predecessors_addPredecessor (f : Function) (htarget : f.HasBlock target) :
    (f.addPredecessor target source).predecessors c =
      if target = c then f.predecessors c ++ [source] else f.predecessors c := by
  rw [Function.predecessors, Function.addPredecessor, block_modifyBlock]
  by_cases hc : target = c
  · rw [if_pos ⟨hc, htarget⟩, if_pos hc]
    rfl
  · rw [if_neg fun h => hc h.1, if_neg hc]
    rfl

lemma Sends.addPredecessor (h : Sends f source targets) (htarget : f.HasBlock target) :
    Sends (f.addPredecessor target source) source (targets ++ [target]) := by
  intro c
  rw [predecessors_addPredecessor f htarget, count_append]
  by_cases hc : target = c
  · simp [hc, h c]
  · simp [hc, h c]

lemma Sends.addPredecessor_ne (h : Sends f b targets) (hb : b ≠ source)
    (htarget : f.HasBlock target) : Sends (f.addPredecessor target source) b targets := by
  intro c
  rw [predecessors_addPredecessor f htarget]
  split
  · simp [h c, Ne.symm hb]
  · exact h c

lemma handlers_addPredecessor (f : Function) (source target c : BlockId) :
    ((f.addPredecessor target source).block c).handlers = (f.block c).handlers := by
  rw [Function.addPredecessor, block_modifyBlock]
  split <;> rfl

lemma Sends.addHandler (h : Sends f b targets) (handler : Handler) :
    Sends (f.addHandler source handler) b targets := by
  intro c
  rw [← h c, Function.predecessors, Function.addHandler, block_modifyBlock]
  split <;> rfl

lemma handlers_addHandler (f : Function) {handler : Handler} (hb : f.HasBlock b) :
    ((f.addHandler b handler).block c).handlers =
      if b = c then (f.block c).handlers ++ [handler] else (f.block c).handlers := by
  rw [Function.addHandler, block_modifyBlock]
  by_cases hc : b = c
  · rw [if_pos ⟨hc, hb⟩, if_pos hc]
  · rw [if_neg fun h => hc h.1, if_neg hc]

end Edges

/-! ## Blocks of ranges -/

/-- The ranges of a list have blocks of their own; the first range may have the entry block. -/
structure Numbered (keys : List Nat) (separate : Bool) (p : Progress) : Prop where
  created : ∀ k, (∃ b, p.blockOf.get? k = some b) ↔ k ∈ keys
  lt : ∀ {k b}, p.blockOf.get? k = some b → b.index < p.func.blocks.size
  inj : ∀ {j k b}, p.blockOf.get? j = some b → p.blockOf.get? k = some b → j = k
  entry_iff : ∀ {k b}, p.blockOf.get? k = some b →
    (b = p.func.entry ↔ k = 0 ∧ separate = false)
  covers : ∀ b, b.index < p.func.blocks.size → b = p.func.entry ∨ ∃ k, p.blockOf.get? k = some b
  entry_lt : 0 < p.func.blocks.size

/-- The edges out of block `b` are those of range `k`. -/
def Wired (layout : Layout) (p : Progress) (k : Nat) (b : BlockId) : Prop :=
  ∀ r, layout.range? k = some r → (∀ j ∈ r.normal, layout.isHandler j = false) ∧
    ∃ normal handlers, p.BlocksOf r.normal normal ∧
      p.BlocksOf (r.exceptional.map Prod.snd) handlers ∧
      Sends p.func b (normal ++ handlers) ∧ Catches p.func b handlers

/-- The blocks of the ranges with the edges between them. -/
structure Skeleton (layout : Layout) (order : List Nat) (separate : Bool) (p : Progress) : Prop
    extends Numbered order separate p where
  wired : ∀ {k b}, p.blockOf.get? k = some b → Wired layout p k b
  entry_wired : separate = true → ∃ first, p.blockOf.get? 0 = some first ∧
    Sends p.func p.func.entry [first] ∧ Catches p.func p.func.entry []

theorem Skeleton.later {layout : Layout} {separate : Bool} (h : Skeleton layout order separate p)
    {gaps gaps' : List Gap} (hlater : Later p p' gaps gaps') (hblock : p'.blockOf = p.blockOf) :
    Skeleton layout order separate p' := by
  have hsends : ∀ {b targets}, Sends p.func b targets → Sends p'.func b targets := by
    intro b targets hb c
    rw [hlater.preds, hb c]
  have hcatches : ∀ {b targets}, Catches p.func b targets → Catches p'.func b targets := by
    intro b targets hb
    rw [Catches, hlater.handlers]
    exact hb
  refine ⟨⟨?_, ?_, ?_, ?_, ?_, ?_⟩, ?_, ?_⟩
  · rw [hblock]
    exact h.created
  · rw [hblock, hlater.size_blocks]
    exact h.lt
  · rw [hblock]
    exact h.inj
  · rw [hblock]
    exact h.entry_iff
  · rw [hblock, hlater.size_blocks]
    exact h.covers
  · rw [hlater.size_blocks]
    exact h.entry_lt
  · intro k b hb r hr
    rw [hblock] at hb
    obtain ⟨hplain, normal, handlers, hnormal, hhandlers, hs, hc⟩ := h.wired hb r hr
    refine ⟨hplain, normal, handlers, ?_, ?_, hsends hs, hcatches hc⟩
    · rw [BlocksOf, hblock]
      exact hnormal
    · rw [BlocksOf, hblock]
      exact hhandlers
  · intro hsep
    obtain ⟨first, hfirst, hs, hc⟩ := h.entry_wired hsep
    exact ⟨first, by rw [hblock, hfirst], hsends hs, hcatches hc⟩

/-! ## Creating blocks -/

section Create

variable {s : Subject} {layout : Layout} {rest : List Nat} {separate : Bool} {p'' : Progress}

def Progress.Recasts (p p' : Progress) : Prop :=
  p' = { p with func := p'.func, blockOf := p'.blockOf }

def Unlinked (f : Function) : Prop :=
  ∀ b, f.predecessors b = [] ∧ (f.block b).handlers = []

lemma Unlinked.addBlock {f : Function} (h : Unlinked f) : Unlinked f.addBlock.2 := by
  intro b
  rw [Function.predecessors, block_addBlock]
  split
  · exact ⟨rfl, rfl⟩
  · exact h b

lemma createBlock_ensures (hk : k ∉ seen)
    (h : Numbered seen separate p) (hbare : Bare p.func) (hunlinked : Unlinked p.func) :
    Ensures (createBlock p.func.entry separate k) p fun _ p' =>
      Numbered (seen ++ [k]) separate p' ∧ Bare p'.func ∧ Unlinked p'.func ∧ p.Recasts p' := by
  have hnone : p.blockOf.get? k = none := by
    by_contra hc
    exact hk ((h.created k).1 (Option.ne_none_iff_exists'.1 hc))
  have hcreated : ∀ b j, (∃ c, (p.blockOf.insert k b).get? j = some c) ↔ j ∈ seen ++ [k] := by
    intro b j
    rw [Assoc.get?_insert]
    by_cases hj : k = j
    · simp [hj]
    · simp [hj, Ne.symm hj, h.created j]
  unfold createBlock
  split
  · next hfirst =>
      refine .seq (.pure (Q := fun b p' => b = p.func.entry ∧ p = p') ⟨rfl, rfl⟩) ?_
      rintro _ _ ⟨rfl, rfl⟩
      refine .modifying ⟨⟨hcreated _, ?_, ?_, ?_, ?_, h.entry_lt⟩, hbare, hunlinked, rfl⟩
      all_goals simp only [Assoc.get?_insert]
      · intro j b hb
        split at hb
        · cases hb
          exact h.entry_lt
        · exact h.lt hb
      · intro i j b hi hj
        split at hi
        · next hki =>
            cases hi
            split at hj
            · next hkj => exact hki.symm.trans hkj
            · exact hki.symm.trans (hfirst.1.trans ((h.entry_iff hj).1 rfl).1.symm)
        · split at hj
          · next hkj =>
              cases hj
              exact ((h.entry_iff hi).1 rfl).1.trans (hfirst.1.symm.trans hkj)
          · exact h.inj hi hj
      · intro j b hb
        split at hb
        · next hkj =>
            cases hb
            simpa [← hkj] using hfirst
        · exact h.entry_iff hb
      · intro b hb
        rcases h.covers b hb with rfl | ⟨j, hj⟩
        · exact .inl rfl
        · refine .inr ⟨j, ?_⟩
          rw [if_neg, hj]
          rintro rfl
          simp [hnone] at hj
  · next hother =>
      refine .bind (.build (.modifying ⟨⟨hcreated _, ?_, ?_, ?_, ?_, ?_⟩,
        hbare.addBlock, hunlinked.addBlock, rfl⟩))
      all_goals simp only [Assoc.get?_insert, Function.addBlock, Array.size_push]
      · intro j b hb
        split at hb
        · cases hb
          exact Nat.lt_succ_self _
        · exact (h.lt hb).trans (Nat.lt_succ_self _)
      · intro i j b hi hj
        split at hi
        · next hki =>
            cases hi
            split at hj
            · next hkj => exact hki.symm.trans hkj
            · exact absurd (h.lt hj) (Nat.lt_irrefl _)
        · split at hj
          · cases hj
            exact absurd (h.lt hi) (Nat.lt_irrefl _)
          · exact h.inj hi hj
      · intro j b hb
        split at hb
        · next hkj =>
            cases hb
            have hpos := h.entry_lt
            have hne : (⟨p.func.blocks.size⟩ : BlockId) ≠ p.func.entry := by
              simp only [Function.entry, ne_eq, BlockId.mk.injEq]
              omega
            constructor
            · exact fun heq => absurd heq hne
            · rintro ⟨rfl, hsep⟩
              exact absurd ⟨hkj, by simp [hsep]⟩ hother
        · exact h.entry_iff hb
      · intro b hb
        rcases Nat.lt_or_eq_of_le (Nat.le_of_lt_succ hb) with hlt | heq
        · rcases h.covers b hlt with rfl | ⟨j, hj⟩
          · exact .inl rfl
          · refine .inr ⟨j, ?_⟩
            rw [if_neg, hj]
            rintro rfl
            simp [hnone] at hj
        · exact .inr ⟨k, by rw [if_pos rfl, ← heq]⟩
      · exact Nat.succ_pos _

/-! ## Connecting blocks -/

/-- The edges from block `b` to the blocks of the given ranges are recorded. -/
structure Linked (layout : Layout) (p p' : Progress) (b : BlockId) (normal handlers : List Nat) :
    Prop where
  links : Links p.func p'.func
  same : p' = p.withFunc p'.func
  others : ∀ d, d ≠ b → ∀ targets, Sends p.func d targets → Sends p'.func d targets
  others_catch : ∀ d, d ≠ b → (p'.func.block d).handlers = (p.func.block d).handlers
  sends : ∃ nbs hbs, p.BlocksOf normal nbs ∧ p.BlocksOf handlers hbs ∧
    Sends p'.func b (nbs ++ hbs) ∧ Catches p'.func b hbs
  plain : ∀ j ∈ normal, layout.isHandler j = false

variable {b d : BlockId} {normal handlers : List Nat}

lemma Progress.BlocksOf.snoc (h : p.BlocksOf ks bs) (hc : p.blockOf.get? j = some c) :
    p.BlocksOf (ks ++ [j]) (bs ++ [c]) := by
  simp only [BlocksOf, map_append, map_cons, map_nil, hc] at h ⊢
  rw [h]

lemma Linked.blockOf (h : Linked layout p p' b normal handlers) : p'.blockOf = p.blockOf := by
  rw [h.same]
  rfl

lemma Linked.normal_snoc (h : Linked layout p p' b normal []) (hb : b.index < p.func.blocks.size)
    (hj : layout.isHandler j = false) (hc : p.blockOf.get? j = some c)
    (hlt : c.index < p.func.blocks.size) :
    Linked layout p (p'.withFunc (p'.func.addPredecessor c b)) b (normal ++ [j]) [] := by
  obtain ⟨nbs, hbs, hnormal, hhandlers, hsends, hcatches⟩ := h.sends
  obtain rfl : hbs = [] := by simpa [BlocksOf] using hhandlers.symm
  rw [append_nil] at hsends
  have hlt' : c.index < p'.func.blocks.size := by rwa [h.links.size_blocks]
  have hb' : b.index < p'.func.blocks.size := by rwa [h.links.size_blocks]
  refine ⟨h.links.trans (.addPredecessor _ c hb'), ?_, ?_, ?_,
    ⟨nbs ++ [c], [], hnormal.snoc hc, rfl, ?_, ?_⟩, ?_⟩
  · rw [h.same]
    rfl
  · exact fun d hd targets hs => (h.others d hd targets hs).addPredecessor_ne hd hlt'
  · intro d hd
    rw [← h.others_catch d hd]
    exact handlers_addPredecessor _ _ _ _
  · rw [append_nil]
    exact hsends.addPredecessor hlt'
  · rw [Catches, withFunc, handlers_addPredecessor]
    exact hcatches
  · intro i hi
    rcases mem_append.1 hi with hi | hi
    · exact h.plain i hi
    · rwa [mem_singleton.1 hi]

lemma Linked.handler_snoc (h : Linked layout p p' b normal handlers)
    (hb : b.index < p.func.blocks.size) (hc : p.blockOf.get? j = some c)
    (hlt : c.index < p.func.blocks.size) (guard : Option TypeRef) :
    Linked layout p
      (p'.withFunc ((p'.func.addHandler b ⟨guard, c⟩).addPredecessor c b)) b normal
      (handlers ++ [j]) := by
  obtain ⟨nbs, hbs, hnormal, hhandlers, hsends, hcatches⟩ := h.sends
  have hsize : (p'.func.addHandler b ⟨guard, c⟩).blocks.size = p.func.blocks.size := by
    rw [Function.addHandler, size_blocks_modifyBlock, h.links.size_blocks]
  have hlt' : c.index < (p'.func.addHandler b ⟨guard, c⟩).blocks.size := by rwa [hsize]
  have hb' : b.index < p'.func.blocks.size := by rwa [h.links.size_blocks]
  refine ⟨(h.links.trans (.addHandler _ b _)).trans (.addPredecessor _ c (by rwa [hsize])), ?_, ?_, ?_,
    ⟨nbs, hbs ++ [c], hnormal, hhandlers.snoc hc, ?_, ?_⟩, h.plain⟩
  · rw [h.same]
    rfl
  · intro d hd targets hs
    exact ((h.others d hd targets hs).addHandler _).addPredecessor_ne hd hlt'
  · intro d hd
    rw [withFunc, handlers_addPredecessor, handlers_addHandler _ hb', if_neg (Ne.symm hd)]
    exact h.others_catch d hd
  · rw [← append_assoc]
    exact (hsends.addHandler _).addPredecessor hlt'
  · rw [Catches, withFunc, handlers_addPredecessor, handlers_addHandler _ hb', if_pos rfl,
      map_append, hcatches]
    rfl

lemma connectRange_ensures (hb : p.blockOf.get? k = some b)
    (hlt : ∀ {j c}, p.blockOf.get? j = some c → c.index < p.func.blocks.size)
    (hcreated : ∀ j ∈ r.normal ++ r.exceptional.map Prod.snd, ∃ c, p.blockOf.get? j = some c)
    (hsends : Sends p.func b []) (hcatches : Catches p.func b []) :
    Ensures (connectRange s layout k r) p fun _ p' =>
      Linked layout p p' b r.normal (r.exceptional.map Prod.snd) := by
  have hstart : Linked layout p p b [] [] :=
    ⟨Links.refl _, rfl, fun _ _ _ h => h, fun _ _ => rfl, ⟨[], [], rfl, rfl, hsends, hcatches⟩,
      fun _ h => absurd h (not_mem_nil)⟩
  refine .seq (blockOfRange_ensures ⟨b, hb⟩) ?_
  rintro c _ ⟨rfl, hc⟩
  obtain rfl : b = c := Option.some.inj (hb.symm.trans hc)
  refine .seq (.forM (I := fun rest p' => ∃ seen, r.normal = seen ++ rest ∧
    Linked layout p p' b seen []) ⟨[], rfl, hstart⟩ ?_) ?_
  · rintro j rest p1 ⟨seen, hseen, h1⟩
    split
    · exact .seq (Q := fun _ _ => False) (.throw trivial) fun _ _ h => h.elim
    · next hplain =>
        obtain ⟨c, hc⟩ := hcreated j (by simp [hseen])
        refine .seq (blockOfRange_ensures ⟨c, by rw [h1.blockOf, hc]⟩) ?_
        rintro d _ ⟨rfl, hd⟩
        obtain rfl : c = d := by
          rw [h1.blockOf, hc] at hd
          exact Option.some.inj hd
        exact .build ⟨seen ++ [j], by simp [hseen],
          h1.normal_snoc (hlt hb) (by simpa using hplain) hc (hlt hc)⟩
  · rintro _ p1 ⟨seen, hseen, h1⟩
    rw [append_nil] at hseen
    subst hseen
    refine (Ensures.forM (I := fun rest p' => ∃ seen, r.exceptional = seen ++ rest ∧
      Linked layout p p' b r.normal (seen.map Prod.snd)) ⟨[], rfl, h1⟩ ?_).mono ?_
    · rintro ⟨guard, j⟩ rest p2 ⟨seen, hseen, h2⟩
      obtain ⟨c, hc⟩ := hcreated j (by simp [hseen])
      refine .seq (blockOfRange_ensures ⟨c, by rw [h2.blockOf, hc]⟩) ?_
      rintro d _ ⟨rfl, hd⟩
      obtain rfl : c = d := by
        rw [h2.blockOf, hc] at hd
        exact Option.some.inj hd
      refine .bind (.build (.build ⟨seen ++ [(guard, j)], by simp [hseen], ?_⟩))
      rw [map_append]
      exact h2.handler_snoc (hlt hb) hc (hlt hc) (guard.map s.view.lookupType)
    · rintro _ p2 ⟨seen, hseen, h2⟩
      rw [append_nil] at hseen
      rwa [hseen]

lemma Linked.wired (hr : layout.range? k = some r)
    (h : Linked layout p p' b r.normal (r.exceptional.map Prod.snd)) : Wired layout p' k b := by
  intro r' hr'
  obtain rfl := Option.some.inj (hr.symm.trans hr')
  obtain ⟨nbs, hbs, hnormal, hhandlers, hsends, hcatches⟩ := h.sends
  refine ⟨h.plain, nbs, hbs, ?_, ?_, hsends, hcatches⟩
  · rw [BlocksOf, h.blockOf]
    exact hnormal
  · rw [BlocksOf, h.blockOf]
    exact hhandlers

lemma Linked.wired_other (h : Linked layout p p' b normal handlers) (hd : d ≠ b)
    (hw : Wired layout p j d) : Wired layout p' j d := by
  intro r hr
  obtain ⟨hplain, nbs, hbs, hnormal, hhandlers, hsends, hcatches⟩ := hw r hr
  refine ⟨hplain, nbs, hbs, ?_, ?_, h.others d hd _ hsends, ?_⟩
  · rw [BlocksOf, h.blockOf]
    exact hnormal
  · rw [BlocksOf, h.blockOf]
    exact hhandlers
  · rw [Catches, h.others_catch d hd]
    exact hcatches

/-- Some ranges are connected: those seen have their edges, the others have none yet. -/
structure Connecting (layout : Layout) (seen rest : List Nat) (separate : Bool) (p p' : Progress) :
    Prop where
  links : Links p.func p'.func
  same : p' = p.withFunc p'.func
  wired : ∀ k ∈ seen, ∀ b, p.blockOf.get? k = some b → Wired layout p' k b
  waiting : ∀ k ∈ rest, ∀ b, p.blockOf.get? k = some b → Sends p'.func b [] ∧ Catches p'.func b []
  entry : separate = true → ∃ first, p.blockOf.get? 0 = some first ∧
    Sends p'.func p'.func.entry [first] ∧ Catches p'.func p'.func.entry []

lemma Connecting.step (hnum : Numbered order separate p)
    (h : Connecting layout seen (k :: rest) separate p p') (hnodup : (seen ++ k :: rest).Nodup)
    (hk : p.blockOf.get? k = some b) (hr : layout.range? k = some r)
    (hlinked : Linked layout p' p'' b r.normal (r.exceptional.map Prod.snd)) :
    Connecting layout (seen ++ [k]) rest separate p p'' := by
  have hne : ∀ j, j ≠ k → ∀ d, p.blockOf.get? j = some d → d ≠ b := by
    rintro j hj d hd rfl
    exact hj (hnum.inj hd hk)
  obtain ⟨-, hnodup', hdisj⟩ := nodup_append.1 hnodup
  refine ⟨h.links.trans hlinked.links, ?_, ?_, ?_, ?_⟩
  · rw [hlinked.same, h.same]
    rfl
  · intro j hj d hd
    rcases mem_append.1 hj with hj | hj
    · refine hlinked.wired_other (hne j ?_ d hd) (h.wired j hj d hd)
      exact hdisj j hj k mem_cons_self
    · obtain rfl := mem_singleton.1 hj
      obtain rfl := Option.some.inj (hk.symm.trans hd)
      exact hlinked.wired hr
  · intro j hj d hd
    have hjk : j ≠ k := by
      rintro rfl
      exact (nodup_cons.1 hnodup').1 hj
    obtain ⟨hs, hc⟩ := h.waiting j (mem_cons_of_mem k hj) d hd
    refine ⟨hlinked.others d (hne j hjk d hd) _ hs, ?_⟩
    rw [Catches, hlinked.others_catch d (hne j hjk d hd)]
    exact hc
  · intro hsep
    obtain ⟨first, hfirst, hs, hc⟩ := h.entry hsep
    have hentry : p.func.entry ≠ b := by
      rintro rfl
      have := ((hnum.entry_iff hk).1 rfl).2
      simp [hsep] at this
    refine ⟨first, hfirst, hlinked.others _ hentry _ hs, ?_⟩
    exact (congrArg _ (hlinked.others_catch p.func.entry hentry)).trans hc

lemma createAll_ensures (hnodup : order.Nodup) (hnum : Numbered [] separate p)
    (hbare : Bare p.func) (hunlinked : Unlinked p.func) :
    Ensures (order.forM (createBlock p.func.entry separate)) p fun _ p' =>
      Numbered order separate p' ∧ Bare p'.func ∧ Unlinked p'.func ∧ p.Recasts p' := by
  refine (Ensures.forM (I := fun rest p' => ∃ seen, order = seen ++ rest ∧
    Numbered seen separate p' ∧ Bare p'.func ∧ Unlinked p'.func ∧ p.Recasts p')
    ⟨[], rfl, hnum, hbare, hunlinked, rfl⟩ ?_).mono ?_
  · rintro k rest p1 ⟨seen, hseen, hnum, hb1, hu1, hsame⟩
    have hk : k ∉ seen := by
      rw [hseen] at hnodup
      exact fun hc => (nodup_append.1 hnodup).2.2 k hc k mem_cons_self rfl
    refine (createBlock_ensures hk hnum hb1 hu1).mono ?_
    rintro _ p2 ⟨hnum2, hb2, hu2, hrecasts⟩
    refine ⟨seen ++ [k], by simp [hseen], hnum2, hb2, hu2, ?_⟩
    rw [Recasts] at hsame hrecasts ⊢
    rw [hrecasts, hsame]
  · rintro _ p1 ⟨seen, hseen, h⟩
    obtain rfl : order = seen := by simpa using hseen
    exact h

lemma connectAll_ensures (hnodup : order.Nodup)
    (hrange : ∀ k ∈ order, ∃ r, layout.range? k = some r)
    (hclosed : ∀ k ∈ order, ∀ j ∈ layout.graph.succ k, j ∈ order)
    (hnum : Numbered order separate p) (hconn : Connecting layout [] order separate p p') :
    Ensures (order.forM fun k => do
        match layout.range? k with
        | some range => connectRange s layout k range
        | none => return) p' fun _ p'' => Connecting layout order [] separate p p'' := by
  refine (Ensures.forM (I := fun rest p'' => ∃ seen, order = seen ++ rest ∧
    Connecting layout seen rest separate p p'') ⟨[], rfl, hconn⟩ ?_).mono ?_
  · rintro k rest p3 ⟨seen, hseen, h3⟩
    have hk : k ∈ order := by simp [hseen]
    obtain ⟨b, hb⟩ := (hnum.created k).2 hk
    obtain ⟨r, hr⟩ := hrange k hk
    rw [hr]
    have hblockOf3 : p3.blockOf = p.blockOf := by
      rw [h3.same]
      rfl
    obtain ⟨hs, hc⟩ := h3.waiting k mem_cons_self b hb
    refine (connectRange_ensures (by rw [hblockOf3, hb]) ?_ ?_ hs hc).mono ?_
    · intro j c hj
      rw [hblockOf3] at hj
      rw [h3.links.size_blocks]
      exact hnum.lt hj
    · intro j hj
      rw [hblockOf3]
      refine (hnum.created j).2 (hclosed k hk j ?_)
      rwa [Layout.Lays.graph_succ hr]
    · intro _ p4 hlinked
      exact ⟨seen ++ [k], by simp [hseen], h3.step hnum (hseen ▸ hnodup) hb hr hlinked⟩
  · rintro _ p3 ⟨seen, hseen, h3⟩
    obtain rfl : order = seen := by simpa using hseen
    exact h3

lemma Connecting.skeleton (hnum : Numbered order separate p)
    (h : Connecting layout order [] separate p p') : Skeleton layout order separate p' := by
  have hblockOf : p'.blockOf = p.blockOf := by
    rw [h.same]
    rfl
  refine ⟨⟨?_, ?_, ?_, ?_, ?_, ?_⟩, ?_, ?_⟩
  · rw [hblockOf]
    exact hnum.created
  · rw [hblockOf, h.links.size_blocks]
    exact hnum.lt
  · rw [hblockOf]
    exact hnum.inj
  · rw [hblockOf]
    exact hnum.entry_iff
  · rw [hblockOf, h.links.size_blocks]
    exact hnum.covers
  · rw [h.links.size_blocks]
    exact hnum.entry_lt
  · intro k b hb
    rw [hblockOf] at hb
    exact h.wired k ((hnum.created k).1 ⟨b, hb⟩) b hb
  · rw [hblockOf]
    exact h.entry

lemma connecting_of_unlinked (hnum : Numbered order separate p) (hunlinked : Unlinked p.func) :
    (separate = false → Connecting layout [] order separate p p) ∧
      ∀ first, separate → p.blockOf.get? 0 = some first →
        Connecting layout [] order separate p
          (p.withFunc (p.func.addPredecessor first p.func.entry)) := by
  have hsilent : ∀ b, Sends p.func b [] := fun b => Sends.nil fun c => (hunlinked c).1
  have hnothing : ∀ b, Catches p.func b [] := by
    intro b
    rw [Catches, (hunlinked b).2]
    rfl
  constructor
  · intro hsep
    exact ⟨Links.refl _, rfl, nofun,
      fun k _ b _ => ⟨hsilent b, hnothing b⟩, fun h => by simp [hsep] at h⟩
  · intro first hsep hfirst
    have hlt := hnum.lt hfirst
    have hcatches : ∀ b, Catches (p.func.addPredecessor first p.func.entry) b [] := by
      intro b
      rw [Catches, handlers_addPredecessor]
      exact hnothing b
    refine ⟨.addPredecessor _ _ hnum.entry_lt, rfl, nofun,
      fun k _ b hb => ⟨?_, hcatches b⟩,
      fun _ => ⟨first, hfirst, (hsilent _).addPredecessor hlt, hcatches _⟩⟩
    refine (hsilent b).addPredecessor_ne (fun heq => ?_) hlt
    have := ((hnum.entry_iff hb).1 heq).2
    simp [hsep] at this

/-- The ranges that control can reach. -/
structure Ordered (layout : Layout) (order : List Nat) : Prop where
  eq : order = layout.graph.reversePostorder 0
  nodup : order.Nodup
  zero : 0 ∈ order
  range : ∀ k ∈ order, ∃ r, layout.range? k = some r
  closed : ∀ k ∈ order, ∀ j ∈ layout.graph.succ k, j ∈ order

lemma ordered_reversePostorder {insns : List Instruction} (hlays : layout.Lays insns) :
    Ordered layout (layout.graph.reversePostorder 0) := by
  refine ⟨rfl, Graph.reversePostorder_nodup _ _, ?_, fun k hk => ?_, fun k hk j hj => ?_⟩
  · obtain ⟨r, hr, -⟩ := hlays.first
    exact mem_of_head? (Graph.head?_reversePostorder (Layout.Lays.lt_of_range? hr))
  · exact ⟨_, getElem?_eq_getElem (Graph.lt_size_of_mem_reversePostorder hk)⟩
  · exact Graph.reversePostorder_closed hk hj (hlays.succ_lt hj)

theorem createBlocks_ensures (horder : Ordered layout order) (hbare : Bare p.func)
    (hblocks : p.func.blocks = #[]) (hblockOf : p.blockOf = {}) :
    Ensures (createBlocks s layout order separate) p fun _ p' =>
      Skeleton layout order separate p' ∧ Bare p'.func ∧
        p' = { p with func := p'.func, blockOf := p'.blockOf, closed := [p.func.entry] } := by
  have hunlinked : Unlinked p.func := by
    intro b
    rw [Function.predecessors, p.func.block_of_size_le (by simp [hblocks])]
    exact ⟨rfl, rfl⟩
  have hentry : p.func.addBlock.1 = p.func.entry := by
    simp [Function.addBlock, hblocks, Function.entry]
  have hnum : Numbered [] separate
      { p with func := p.func.addBlock.2, closed := [p.func.entry] } := by
    have hnone : ∀ k, p.blockOf.get? k = none := by
      intro k
      rw [hblockOf]
      rfl
    refine ⟨by simp [hnone], by simp [hnone], by simp [hnone], by simp [hnone], fun b hb => ?_,
      by simp [Function.addBlock]⟩
    simp only [Function.addBlock, hblocks, push_toArray, nil_append, size_toArray,
      length_singleton, Nat.lt_one_iff] at hb
    exact .inl (BlockId.eq_iff.2 hb)
  refine .bind (.build (.bind (.modifying ?_)))
  rw [hentry]
  refine .seq (createAll_ensures horder.nodup hnum hbare.addBlock hunlinked.addBlock) ?_
  rintro _ p1 ⟨hnum1, hb1, hu1, hsame⟩
  obtain ⟨hjoint, hapart⟩ :
      (separate = false → Connecting layout [] order separate p1 p1) ∧ _ :=
    connecting_of_unlinked hnum1 hu1
  have hfinish : ∀ p2, Connecting layout [] order separate p1 p2 →
      Ensures (order.forM fun k => do
        match layout.range? k with
        | some range => connectRange s layout k range
        | none => return) p2 fun _ p' => Skeleton layout order separate p' ∧ Bare p'.func ∧
          p' = { p with func := p'.func, blockOf := p'.blockOf, closed := [p.func.entry] } := by
    intro p2 hconn
    refine (connectAll_ensures horder.nodup horder.range horder.closed hnum1 hconn).mono ?_
    intro _ p3 h3
    refine ⟨h3.skeleton hnum1, h3.links.bare hb1, ?_⟩
    rw [h3.same, hsame]
    rfl
  split
  · next hsep =>
      obtain ⟨first, hfirst⟩ := (hnum1.created 0).2 horder.zero
      refine .seq (blockOfRange_ensures ⟨first, hfirst⟩) ?_
      rintro c _ ⟨rfl, hc⟩
      obtain rfl := Option.some.inj (hfirst.symm.trans hc)
      exact .bind (.build (hfinish _ (hapart first hsep hfirst)))
  · next hsep => exact hfinish _ (hjoint (by simpa using hsep))

end Create

/-! ## Edges of the skeleton -/

lemma Progress.BlocksOf.mem_iff
    (h : p.BlocksOf ks bs) : c ∈ bs ↔ ∃ j ∈ ks, p.blockOf.get? j = some c := by
  rw [← mem_map, h, mem_map_of_injective (Option.some_injective _)]

namespace Skeleton

variable {layout : Layout} {separate : Bool} {b : BlockId}

section

variable (h : Skeleton layout order separate p)
include h

section

variable (horder : Ordered layout order)
include horder

lemma mem_predecessors_iff (hb : p.blockOf.get? k = some b) :
    b ∈ p.func.predecessors c ↔ ∃ j ∈ layout.graph.succ k, p.blockOf.get? j = some c := by
  obtain ⟨r, hr⟩ := horder.range k ((h.created k).1 ⟨b, hb⟩)
  obtain ⟨-, normal, handlers, hnormal, hhandlers, hsends, -⟩ := h.wired hb r hr
  rw [← count_pos_iff, hsends c, count_pos_iff, mem_append, hnormal.mem_iff,
    hhandlers.mem_iff, Layout.Lays.graph_succ hr]
  simp only [mem_append, or_and_right, exists_or]

lemma entry_preds (hbare : Bare p.func) (hsep : separate = reentersFirst layout order) :
    p.func.predecessors p.func.entry = [] := by
  refine eq_nil_iff_forall_not_mem.2 fun c hc => ?_
  have hrange : ∀ k, p.blockOf.get? k = some c → False := by
    intro k hk
    obtain ⟨j, hj, hentry⟩ := (h.mem_predecessors_iff horder hk).1 hc
    obtain ⟨rfl, hfalse⟩ := (h.entry_iff hentry).1 rfl
    have hback : reentersFirst layout order = true :=
      any_eq_true.2 ⟨k, (h.created k).1 ⟨c, hk⟩, by simpa using hj⟩
    rw [← hsep, hfalse] at hback
    exact Bool.noConfusion hback
  rcases h.covers c (hbare.preds_lt _ c hc) with rfl | ⟨k, hk⟩
  · cases hs : separate with
    | false =>
      obtain ⟨b, hb⟩ := (h.created 0).2 horder.zero
      rw [(h.entry_iff hb).2 ⟨rfl, hs⟩] at hb
      exact hrange 0 hb
    | true =>
      obtain ⟨first, hfirst, hsends, -⟩ := h.entry_wired hs
      have hcount := hsends p.func.entry
      have hpos := count_pos_iff.2 hc
      rw [hcount, count_pos_iff, mem_singleton] at hpos
      have := ((h.entry_iff hfirst).1 hpos.symm).2
      simp [hs] at this
  · exact hrange k hk

lemma reach (hlt : p.func.HasBlock b) : ∃ t, p.func.Trail (b :: t) := by
  have hfirst : ∀ c, p.blockOf.get? 0 = some c → ∃ t, p.func.Trail (c :: t) := by
    intro c hc
    cases hs : separate with
    | false => exact ⟨[], (h.entry_iff hc).2 ⟨rfl, hs⟩ ▸ .start⟩
    | true =>
      obtain ⟨first, hfirst, hsends, -⟩ := h.entry_wired hs
      obtain rfl := Option.some.inj (hfirst.symm.trans hc)
      refine ⟨[p.func.entry], .step .start ?_⟩
      rw [← count_pos_iff, hsends first]
      simp
  -- along a path between ranges the trail of blocks grows
  have hpath : ∀ {i k nodes}, layout.graph.Path i nodes k → ∀ c, p.blockOf.get? i = some c →
      (∃ t, p.func.Trail (c :: t)) → i ∈ order → ∀ d, p.blockOf.get? k = some d →
        ∃ t, p.func.Trail (d :: t) := by
    intro i k nodes hpath
    induction hpath with
    | single =>
      intro c hc ht _ d hd
      rw [← Option.some.inj (hc.symm.trans hd)]
      exact ht
    | cons hedge _ ih =>
      rintro c hc ⟨t, ht⟩ hi d hd
      have hj := horder.closed _ hi _ hedge.2.2
      obtain ⟨e, he⟩ := (h.created _).2 hj
      have hpred := (h.mem_predecessors_iff horder hc).2 ⟨_, hedge.2.2, he⟩
      exact ih e he ⟨_, .step ht hpred⟩ hj d hd
  rcases h.covers b hlt with rfl | ⟨k, hk⟩
  · exact ⟨[], .start⟩
  · have hmem := (h.created k).1 ⟨b, hk⟩
    rw [horder.eq, Graph.mem_reversePostorder_iff] at hmem
    obtain ⟨nodes, hnodes⟩ := hmem
    obtain ⟨first, hfirst'⟩ := (h.created 0).2 horder.zero
    exact hpath hnodes first hfirst' (hfirst first hfirst') horder.zero b hk

lemma sound (hbare : Bare p.func) (hsep : separate = reentersFirst layout order)
    (hheld : p.held = {}) (hwaiting : p.waiting = {}) (hreplaced : p.replaced = {})
    (hclosed : p.closed = [p.func.entry]) : p.Sound [] ∧ p.Honest [] :=
  hbare.sound (h.entry_preds horder hbare hsep) (fun _ hb => h.reach horder hb) hheld hwaiting
    hreplaced hclosed

end

end

end Skeleton

end Dissolve.Lift
