import Dissolve.Proofs.Inline.Additions

/-!
# Proofs.Inline.Expand — a body of several blocks behind the call

The block of the call is split behind the call (`Split`), and the blocks of the callee are copied between
its two parts: first the blocks, then the phis and the values, then the instructions with the edges.
-/

namespace Dissolve.Inline

open List Option
open Ssa (Edit Function Op Position)
open Ssa.Function
open Semantics

/-! ## Splitting the block of the call -/

section Split

variable {f g : Function} {b new : BlockId}

/-- The block of a call has been split behind the call. -/
structure Split (f : Function) (call : InsnId) (before after : List InsnId) (g : Function) : Prop where
  orderly : g.Orderly
  blocks : g.blocks.size = f.blocks.size + 1
  insns : g.insns.size = f.insns.size
  phis : g.phis = f.phis
  values : g.values = f.values
  insn : ∀ i, g.insn i = if i ∈ after then { f.insn i with block := ⟨f.blocks.size⟩ } else f.insn i
  tail : g.block ⟨f.blocks.size⟩ = { insns := after }
  block : ∀ b : BlockId, b.index < f.blocks.size → g.block b = { f.block b with
    insns := if b = (f.insn call).block then before ++ [call] else (f.block b).insns
    preds := (f.block b).preds.map fun p =>
      if p = (f.insn call).block then ⟨f.blocks.size⟩ else p }

lemma splitBlock_ok (hf : f.WellFormed) {call : InsnId} {before after : List InsnId}
    (hhome : (f.block (f.insn call).block).insns = before ++ call :: after)
    (hrun : (Ssa.splitBlock (f.insn call).block (before.length + 1)).run f = .ok new g) :
    new = ⟨f.blocks.size⟩ ∧ Split f call before after g := by
  have hexact := hf.exact
  have hlt : (f.insn call).block.index < f.blocks.size := by
    by_contra hle
    rw [f.block_of_size_le (by omega)] at hhome
    simp [Ssa.Block.gone] at hhome
  have htake : (before ++ call :: after).take (before.length + 1) = before ++ [call] := by
    rw [append_cons, take_left' (by simp)]
  have hdrop : (before ++ call :: after).drop (before.length + 1) = after := by
    rw [append_cons, drop_left' (by simp)]
  have hplain : (f.block (f.insn call).block).handlers = [] := by
    by_contra hcovered
    rw [splitBlock_covered hcovered] at hrun
    cases hrun
  rw [splitBlock_plain hplain] at hrun
  cases hrun
  -- only successors of the block list it as a predecessor
  have hpreds : ∀ b, b ∉ f.normalSuccessors (f.insn call).block →
      (f.block b).preds.map (fun p => if p = (f.insn call).block then ⟨f.blocks.size⟩ else p) =
        (f.block b).preds := by
    intro b hb
    refine (map_congr_left (g := id) fun p hp => if_neg ?_).trans (map_id _)
    rintro rfl
    have hsucc := hf.mem_successors_iff.2 hp
    rw [successors, hplain, map_nil, append_nil] at hsucc
    exact hb hsucc
  refine ⟨rfl, hf.orderly.splitAt _ hlt, size_blocks_splitAt _ _ _, size_insns_splitAt _ _ _, phis_splitAt _ _ _,
    values_splitAt _ _ _, fun i => ?_, ?_, fun b hb => ?_⟩
  · rw [hexact.insn_splitAt, hhome, hdrop]
    split <;> rfl
  · rw [block_splitAt_new _ hlt, hhome, hdrop]
  · rw [block_splitAt _ hlt (Nat.ne_of_lt hb), hhome, htake]
    by_cases hsucc : b ∈ f.normalSuccessors (f.insn call).block
    · rw [if_pos hsucc]
    · rw [if_neg hsucc, hpreds b hsucc]

end Split

/-! ## New blocks -/

/-- What stands for blocks of the callee: blocks from `bound` up to `size`, no two of which share one. -/
structure BlockNames (bound size : Nat) (done : List BlockId) (blocks : Assoc BlockId BlockId) :
    Prop where
  get : ∀ c ∈ done, ∃ b, blocks.get? c = some b
  range : ∀ c b, blocks.get? c = some b → bound ≤ b.index ∧ b.index < size
  inj : ∀ c c' b, blocks.get? c = some b → blocks.get? c' = some b → c = c'
  onto : ∀ b : BlockId, bound ≤ b.index → b.index < size → ∃ c ∈ done, blocks.get? c = some b

structure Roomed (f : Function) (done : List BlockId) (r : Renaming) (g : Function) :
    Prop where
  ahead : Ahead f g
  orderly : g.Orderly
  names : BlockNames f.blocks.size g.blocks.size done r.blocks
  values : r.values = {}
  room : ∀ b : BlockId, f.blocks.size ≤ b.index → b.index < g.blocks.size → g.block b = {}
  same : g.insns = f.insns ∧ g.phis = f.phis ∧ g.values = f.values

lemma Roomed.start {f : Function} (h : f.Orderly) : Roomed f [] {} f where
  ahead := .refl f
  orderly := h
  names := ⟨nofun,
    fun _ b hb => (some_ne_none b hb.symm).elim,
    fun _ _ b hb => (some_ne_none b hb.symm).elim, fun b hle hlt => absurd hle (by omega)⟩
  values := rfl
  room b hb hlt := absurd hb (by omega)
  same := ⟨rfl, rfl, rfl⟩

lemma Roomed.loop {f g g' : Function} {done todo : List BlockId} {r r' : Renaming}
    (h : Roomed f done r g) (hnodup : (done ++ todo).Nodup)
    (hrun : (todo.foldlM copyBlock r).run g = .ok r' g') : Roomed f (done ++ todo) r' g' := by
  induction todo generalizing done r g with
  | nil =>
    cases hrun
    rwa [append_nil]
  | cons b todo ih =>
    obtain ⟨r1, g1, ⟨⟩, htail⟩ := Edit.ok_of_bind hrun
    rw [append_cons] at hnodup ⊢
    refine ih ?_ hnodup htail
    have hnew : b ∉ done := fun hb => (nodup_append.1 (nodup_append.1 hnodup).1).2.2 b hb b
      (mem_singleton_self b) rfl
    have hsize : g.addBlock.2.blocks.size = g.blocks.size + 1 := by simp [addBlock]
    refine ⟨h.ahead.trans (.addBlock g), h.orderly.addBlock, ?_, h.values, ?_, h.same⟩
    · change BlockNames f.blocks.size g.addBlock.2.blocks.size (done ++ [b])
        (r.blocks.insert b ⟨g.blocks.size⟩)
      rw [hsize]
      have hget : ∀ c, (r.blocks.insert b ⟨g.blocks.size⟩).get? c =
          if b = c then some ⟨g.blocks.size⟩ else r.blocks.get? c := fun c => Assoc.get?_insert _ _ _ _
      refine ⟨fun c hc => ?_, fun c d hd => ?_, fun c c' d hd hd' => ?_, fun d hle hlt => ?_⟩
      · by_cases hbc : b = c
        · exact ⟨_, (hget c).trans (if_pos hbc)⟩
        · have hc := (mem_append.1 hc).resolve_right fun hmem =>
            hbc (mem_singleton.1 hmem).symm
          obtain ⟨d, hd⟩ := h.names.get c hc
          exact ⟨d, ((hget c).trans (if_neg hbc)).trans hd⟩
      · have hd := (hget c).symm.trans hd
        split at hd
        · cases hd
          exact ⟨h.ahead.blocks, Nat.lt_succ_self _⟩
        · obtain ⟨hle, hlt⟩ := h.names.range c d hd
          exact ⟨hle, by omega⟩
      · have hd := (hget c).symm.trans hd
        have hd' := (hget c').symm.trans hd'
        split at hd <;> split at hd'
        · rename_i hc hc'
          exact hc.symm.trans hc'
        · cases hd
          exact absurd (h.names.range c' _ hd').2 (Nat.lt_irrefl _)
        · cases hd'
          exact absurd (h.names.range c _ hd).2 (Nat.lt_irrefl _)
        · exact h.names.inj c c' d hd hd'
      · by_cases hd : g.HasBlock d
        · obtain ⟨c, hc, hget'⟩ := h.names.onto d hle hd
          have hbc : b ≠ c := fun heq => hnew (heq ▸ hc)
          exact ⟨c, by simp [hc], ((hget c).trans (if_neg hbc)).trans hget'⟩
        · obtain rfl : d = ⟨g.blocks.size⟩ := congrArg BlockId.mk (by omega)
          exact ⟨b, by simp, (hget b).trans (if_pos rfl)⟩
    · intro c hc hlt
      change g.addBlock.2.block c = {}
      rw [block_addBlock]
      split
      · rfl
      · refine h.room c hc ?_
        have hlt : c.index < g.blocks.size + 1 := hsize ▸ hlt
        omega

/-! ## New values -/

/-- What stands for the values that some sites of the callee define. -/
structure Naming (callee : Function) (args : List ValueId) (bound size : Nat) (sites : List Site)
    (values : Assoc ValueId ValueId) : Prop extends Bindings callee args bound size values where
  keys : ∀ w v, values.get? w = some v → ∃ site ∈ sites, callee.Defines w site
  named : ∀ site ∈ sites, ∀ w, callee.Defines w site → ∃ v, values.get? w = some v

namespace Naming

variable {callee : Function} {args : List ValueId} {bound size : Nat} {sites : List Site}
  {values : Assoc ValueId ValueId} {w v : ValueId} {site : Site}

lemma empty : Naming callee args bound size [] {} :=
  ⟨.empty, fun _ _ h => (some_ne_none _ h.symm).elim, nofun⟩

section

variable (h : Naming callee args bound size sites values)
include h

lemma get?_insert (hc : callee.Exact) (hsite : site ∉ sites) (hw : callee.Defines w site)
    {u x : ValueId} (hu : values.get? u = some x) : (values.insert w v).get? u = some x := by
  rw [Assoc.get?_insert, if_neg, hu]
  rintro rfl
  obtain ⟨site', hmem, hdef⟩ := h.keys w x hu
  exact hsite (hc.defines_unique hdef hw ▸ hmem)

lemma keys_insert (hw : callee.Defines w site)
    (u x : ValueId) (hu : (values.insert w v).get? u = some x) :
    ∃ site' ∈ sites ++ [site], callee.Defines u site' := by
  rcases Assoc.of_get?_insert hu with ⟨rfl, -⟩ | hu
  · exact ⟨site, by simp, hw⟩
  · obtain ⟨site', hmem, hdef⟩ := h.keys u x hu
    exact ⟨site', by simp [hmem], hdef⟩

lemma named_insert (hc : callee.Exact) (hsite : site ∉ sites) (hw : callee.Defines w site)
    (hunique : ∀ u, callee.Defines u site → u = w) :
    ∀ site' ∈ sites ++ [site], ∀ u, callee.Defines u site' →
      ∃ x, (values.insert w v).get? u = some x := by
  intro site' hmem u hu
  rcases mem_append.1 hmem with hmem | hmem
  · obtain ⟨x, hx⟩ := h.named site' hmem u hu
    exact ⟨x, h.get?_insert hc hsite hw hx⟩
  · obtain rfl := mem_singleton.1 hmem
    exact ⟨v, by rw [Assoc.get?_insert, if_pos (hunique u hu).symm]⟩

lemma insert_new (hc : callee.Exact)
    (hargs : ∀ v ∈ args, v.index < bound) (hbound : bound ≤ size) (hsite : site ∉ sites)
    (hw : callee.Defines w site) (hunique : ∀ u, callee.Defines u site → u = w)
    (hparam : ∀ i index, site = .insn i → (callee.insn i).op ≠ .argument index) :
    Naming callee args bound (size + 1) (sites ++ [site]) (values.insert w ⟨size⟩) := by
  refine ⟨h.toBindings.insert_new hargs hbound fun i index hop hi => ?_, h.keys_insert hw,
    h.named_insert hc hsite hw hunique⟩
  exact hparam i index (hc.defines_unique (v := w) (t := .insn i) hw hi) hop

lemma insert_argument (hc : callee.Exact) (hargs : ∀ v ∈ args, v.index < bound) {i : InsnId}
    {index : Nat} (hsite : .insn i ∉ sites) (hop : (callee.insn i).op = .argument index)
    (hw : (callee.insn i).dest = some w) (hv : args[index]? = some v) :
    Naming callee args bound size (sites ++ [.insn i]) (values.insert w v) :=
  ⟨h.toBindings.insert_argument hargs hop hw hv, h.keys_insert hw,
    h.named_insert hc hsite hw fun _ hu => some.inj (Eq.symm (hw.symm.trans hu))⟩

lemma skip
    (hnone : ∀ w, ¬callee.Defines w site) : Naming callee args bound size (sites ++ [site]) values := by
  refine ⟨h.toBindings, fun w v hv => ?_, fun site' hmem w hw => ?_⟩
  · obtain ⟨site', hmem, hdef⟩ := h.keys w v hv
    exact ⟨site', by simp [hmem], hdef⟩
  · rcases mem_append.1 hmem with hmem | hmem
    · exact h.named site' hmem w hw
    · exact absurd hw (mem_singleton.1 hmem ▸ hnone w)

end

end Naming

/-- Phis have been added for phis of the callee; the list names each with what it is a copy of. -/
structure Phied (f callee : Function) (args : List ValueId) (block : BlockId → BlockId)
    (done : List (PhiId × PhiId)) (r : Renaming) (g : Function) : Prop where
  ahead : Ahead f g
  orderly : g.Orderly
  renames : r.block = block
  room : ∀ b : BlockId, f.blocks.size ≤ b.index → b.index < g.blocks.size → g.block b =
    { phis := (done.filter fun c => decide (block (callee.phi c.2).block = b)).map Prod.fst }
  copies : ∀ c ∈ done, f.phis.size ≤ c.1.index ∧ c.1.index < g.phis.size ∧
    r.values.get? (callee.phi c.2).value = some (g.phi c.1).value
  distinct : (done.map Prod.fst).Nodup
  naming : Naming callee args f.values.size g.values.size (done.map fun c => .phi c.2) r.values
  insns : g.insns = f.insns

section Phis

variable {f callee g g' : Function} {args : List ValueId} {block : BlockId → BlockId}
  {done copies : List (PhiId × PhiId)} {todo : List PhiId} {r r' : Renaming} {q new : PhiId}

lemma Phied.step (hc : callee.Exact) (hargs : ∀ v ∈ args, f.HasValue v)
    (hlive : callee.LivePhi q)
    (hle : f.blocks.size ≤ (block (callee.phi q).block).index)
    (hlt : g.HasBlock (block (callee.phi q).block))
    (hnew : ∀ c ∈ done, c.2 ≠ q) (h : Phied f callee args block done r g)
    (hrun : (copyPhi callee r q).run g = .ok (new, r') g') :
    Phied f callee args block (done ++ [(new, q)]) r' g' ∧ g'.blocks.size = g.blocks.size := by
  obtain ⟨rfl, hg, hr⟩ : new = ⟨g.phis.size⟩ ∧
      g' = (g.insertPhi (r.block (callee.phi q).block) (callee.value (callee.phi q).value).ty).2 ∧
      r' = r.addValue (callee.phi q).value
        ((g.insertPhi (r.block (callee.phi q).block)
          (callee.value (callee.phi q).value).ty).2.phi ⟨g.phis.size⟩).value := by
    cases hrun
    exact ⟨rfl, rfl, rfl⟩
  rw [phi_insertPhi, if_pos rfl] at hr
  rw [h.renames] at hg
  have hdef : callee.Defines (callee.phi q).value (.phi q) := ⟨hlive, rfl⟩
  have hsite : Site.phi q ∉ done.map fun c => Site.phi c.2 := fun hmem => by
    obtain ⟨c, hc', heq⟩ := mem_map.1 hmem
    exact hnew c hc' (Site.phi.inj heq)
  subst hg hr
  have hempty : g.LiveBlock (block (callee.phi q).block) := by rw [LiveBlock, h.room _ hle hlt]
  refine ⟨⟨h.ahead.insertPhi hle, h.orderly.insertPhi _ hempty, h.renames, fun b hb hb' => ?_, fun c hc' => ?_,
    ?_, ?_, h.insns⟩, by simp⟩
  · rw [size_blocks_insertPhi] at hb'
    rw [block_insertPhi, h.room b hb hb', filter_append, map_append]
    by_cases heq : block (callee.phi q).block = b
    · rw [if_pos ⟨heq, hlt⟩]
      simp [heq]
    · rw [if_neg fun hand => heq hand.1]
      simp [heq]
  · rw [size_phis_insertPhi, phi_insertPhi]
    rcases mem_append.1 hc' with hc' | hc'
    · obtain ⟨hge, hlt', hget⟩ := h.copies c hc'
      rw [if_neg (by omega)]
      exact ⟨hge, by omega, h.naming.get?_insert hc hsite hdef hget⟩
    · obtain rfl := mem_singleton.1 hc'
      rw [if_pos rfl]
      exact ⟨h.ahead.phis, Nat.lt_succ_self _, Assoc.get?_insert_self ..⟩
  · rw [map_append, nodup_append]
    refine ⟨h.distinct, by simp, fun p hp p' hp' heq => ?_⟩
    obtain ⟨c, hc', rfl⟩ := mem_map.1 hp
    have hfirst : c.1 = ⟨g.phis.size⟩ := heq.trans (by simpa using hp')
    exact absurd (h.copies c hc').2.1 (by rw [hfirst]; exact Nat.lt_irrefl _)
  · rw [map_append, size_values_insertPhi]
    refine h.naming.insert_new hc hargs h.ahead.values hsite hdef (fun u hu => hu.2.symm) ?_
    rintro i index ⟨⟩

lemma Phied.loop (hc : callee.Exact) (hargs : ∀ v ∈ args, f.HasValue v)
    (hlive : ∀ q ∈ todo, callee.LivePhi q)
    (hblock : ∀ q ∈ todo, f.blocks.size ≤ (block (callee.phi q).block).index ∧
      g.HasBlock (block (callee.phi q).block))
    (hnodup : todo.Nodup) (hnew : ∀ q ∈ todo, ∀ c ∈ done, c.2 ≠ q)
    (h : Phied f callee args block done r g)
    (hrun : (copyPhis callee r todo).run g = .ok (copies, r') g') :
    Phied f callee args block (done ++ copies) r' g' ∧ copies.map Prod.snd = todo ∧
      r'.blocks = r.blocks ∧ g'.blocks.size = g.blocks.size := by
  induction todo generalizing done r g copies with
  | nil =>
    cases hrun
    exact ⟨by rwa [append_nil], rfl, rfl, rfl⟩
  | cons q todo ih =>
    obtain ⟨⟨new, r1⟩, g1, hstep, htail⟩ := Edit.ok_of_bind hrun
    obtain ⟨⟨more, r2⟩, g2, hmore, ⟨⟩⟩ := Edit.ok_of_bind htail
    obtain ⟨hq, hnodup⟩ := nodup_cons.1 hnodup
    obtain ⟨hle, hlt⟩ := hblock q mem_cons_self
    have hblocks : r1.blocks = r.blocks := by
      cases hstep
      rfl
    obtain ⟨hphied, hsize⟩ := h.step hc hargs (hlive q mem_cons_self) hle hlt
      (hnew q mem_cons_self) hstep
    have hnew' : ∀ q' ∈ todo, ∀ c ∈ done ++ [(new, q)], c.2 ≠ q' := by
      intro q' hq' c hc'
      rcases mem_append.1 hc' with hc' | hc'
      · exact hnew q' (mem_cons_of_mem _ hq') c hc'
      · rw [mem_singleton.1 hc']
        exact fun heq : q = q' => hq (heq ▸ hq')
    obtain ⟨hrest, hsnd, hkept, hsize'⟩ := ih (fun q' h' => hlive q' (mem_cons_of_mem _ h'))
      (fun q' h' => by rw [HasBlock, hsize]; exact hblock q' (mem_cons_of_mem _ h')) hnodup hnew' hphied
      hmore
    exact ⟨by rwa [append_cons], by rw [map_cons, hsnd], hkept.trans hblocks, hsize'.trans hsize⟩

end Phis

/-- Values have been added for values of the callee, and nothing else. -/
structure Valued (g : Function) (r : Renaming) (g' : Function) (r' : Renaming) : Prop where
  same : g'.blocks = g.blocks ∧ g'.insns = g.insns ∧ g'.phis = g.phis
  size : g.values.size ≤ g'.values.size
  definition : ∀ v, (g'.value v).definition = (g.value v).definition
  blocks : r'.blocks = r.blocks
  kept : ∀ u x, r.values.get? u = some x → r'.values.get? u = some x

lemma Valued.refl (g : Function) (r : Renaming) : Valued g r g r where
  same := ⟨rfl, rfl, rfl⟩
  size := le_rfl
  definition _ := rfl
  blocks := rfl
  kept _ _ hx := hx

section Values

variable {callee g g' : Function} {args : List ValueId} {bound : Nat} {sites : List Site}
  {r r' : Renaming} {i : InsnId} {todo : List InsnId}

lemma renameDest_cases (hrun : (renameDest callee args r i).run g = .ok r' g') :
    (∃ index w v, (callee.insn i).op = .argument index ∧ (callee.insn i).dest = some w ∧
      args[index]? = some v ∧ r' = r.addValue w v ∧ g' = g) ∨
    (∃ w, (∀ index, (callee.insn i).op ≠ .argument index) ∧ (callee.insn i).dest = some w ∧
      r' = r.addValue w ⟨g.values.size⟩ ∧ g' = (g.addValue (callee.value w).ty).2) ∨
    ((callee.insn i).dest = none ∧ r' = r ∧ g' = g) := by
  unfold renameDest at hrun
  dsimp only at hrun
  split at hrun
  · rename_i index w hop hw
    obtain ⟨v, g1, harg, hrun⟩ := Edit.ok_of_bind hrun
    unfold argumentOf at harg
    split at harg
    · rename_i v' hv
      cases harg
      cases hrun
      exact .inl ⟨index, w, v, hop, hw, hv, rfl, rfl⟩
    · cases harg
  · rename_i w hw hparam
    cases hrun
    exact .inr (.inl ⟨w, hparam, hw, rfl, rfl⟩)
  · rename_i hnone
    cases hrun
    exact .inr (.inr ⟨hnone, rfl, rfl⟩)

lemma renameDest_loop (hc : callee.Exact) (hargs : ∀ v ∈ args, v.index < bound)
    (hnodup : todo.Nodup) (hnew : ∀ i ∈ todo, .insn i ∉ sites) (hbound : bound ≤ g.values.size)
    (h : Naming callee args bound g.values.size sites r.values) (horderly : g.Orderly)
    (hrun : (todo.foldlM (renameDest callee args) r).run g = .ok r' g') :
    Naming callee args bound g'.values.size (sites ++ todo.map .insn) r'.values ∧ g'.Orderly ∧
      Valued g r g' r' ∧ ∀ i ∈ todo, (∀ index, (callee.insn i).op ≠ .argument index) → ∀ w v,
        (callee.insn i).dest = some w → r'.values.get? w = some v → g.values.size ≤ v.index := by
  induction todo generalizing sites r g with
  | nil =>
    cases hrun
    exact ⟨by simpa using h, horderly, .refl _ _, nofun⟩
  | cons i todo ih =>
    obtain ⟨r1, g1, hstep, htail⟩ := Edit.ok_of_bind hrun
    obtain ⟨hi, hnodup⟩ := nodup_cons.1 hnodup
    have hsite := hnew i mem_cons_self
    have hnew' : ∀ j ∈ todo, .insn j ∉ sites ++ [.insn i] := by
      intro j hj hmem
      rcases mem_append.1 hmem with hmem | hmem
      · exact hnew j (mem_cons_of_mem _ hj) hmem
      · exact hi (Site.insn.inj (mem_singleton.1 hmem) ▸ hj)
    rw [map_cons, append_cons]
    rcases renameDest_cases hstep with ⟨index, w, v, hop, hw, hv, rfl, rfl⟩ |
      ⟨w, hparam, hw, rfl, rfl⟩ | ⟨hnone, rfl, rfl⟩
    · obtain ⟨hrest, horderly', hmore, hfresh⟩ := ih hnodup hnew' hbound
        (h.insert_argument hc hargs hsite hop hw hv) horderly htail
      refine ⟨hrest, horderly', ⟨hmore.same, hmore.size, hmore.definition, hmore.blocks,
        fun u x hx => hmore.kept u x (h.get?_insert hc hsite hw hx)⟩, fun j hj hparam => ?_⟩
      rcases mem_cons.1 hj with rfl | hj
      · exact absurd hop (hparam index)
      · exact hfresh j hj hparam
    · have hsize : (g.addValue (callee.value w).ty).2.values.size = g.values.size + 1 := by
        simp [addValue]
      have hnaming := h.insert_new hc hargs hbound hsite hw
        (fun u hu => some.inj (Eq.symm (hw.symm.trans hu))) fun j index hj hop =>
          hparam index (Site.insn.inj hj ▸ hop)
      rw [← hsize] at hnaming
      obtain ⟨hrest, horderly', hmore, hfresh⟩ := ih hnodup hnew' (by omega) hnaming
        (horderly.addValue _) htail
      refine ⟨hrest, horderly', ⟨hmore.same, ?_, fun v => ?_, hmore.blocks,
        fun u x hx => hmore.kept u x (h.get?_insert hc hsite hw hx)⟩, fun j hj hparam' u x hu hx => ?_⟩
      · have := hmore.size
        omega
      · rw [hmore.definition, value_addValue]
        split
        · rename_i hv
          rw [g.value_of_size_le (Nat.le_of_eq hv.symm)]
          rfl
        · rfl
      · rcases mem_cons.1 hj with rfl | hj
        · obtain rfl := some.inj (hw.symm.trans hu)
          have hself : (r.addValue w ⟨g.values.size⟩).values.get? w = some ⟨g.values.size⟩ :=
            Assoc.get?_insert_self ..
          obtain rfl := some.inj ((hmore.kept _ _ hself).symm.trans hx)
          exact le_rfl
        · have := hfresh j hj hparam' u x hu hx
          omega
    · obtain ⟨hrest, horderly', hmore, hfresh⟩ := ih hnodup hnew' hbound
        (h.skip fun w hw => some_ne_none w (Eq.symm (hnone.symm.trans hw))) horderly htail
      refine ⟨hrest, horderly', hmore, fun j hj hparam u x hu => ?_⟩
      rcases mem_cons.1 hj with rfl | hj
      · rw [hnone] at hu
        cases hu
      · exact hfresh j hj hparam u x hu

end Values

end Dissolve.Inline
