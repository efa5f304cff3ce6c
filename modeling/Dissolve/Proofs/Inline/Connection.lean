import Dissolve.Proofs.Inline.Bodies

/-!
# Proofs.Inline.Connection — the copy between the two parts of a split block

`Stocked` says that a caller holds a copy of the callee, whatever leads to it. `Expanded` says what the
caller looks like whose block has been split behind the call, with the copied blocks between the two
parts and the call still there; `Merge` says where the value behind the returns
comes from. Once the result is bound and the call is taken out this is the caller with a copy of the
callee in the place of the call (`Expanded.inlined`).
-/

namespace Dissolve.Inline

open List
open Ssa (Edit Function Op Position)
open Ssa.Function
open Semantics

variable {D : Type} {target : BlockId} {j k call : InsnId} {site : Site} {slot : Nat}
  {env : ValueId → D} {u : Option ValueId}

/-- A block of the callee and its copy; edges into the copy are left open. -/
structure BlockCopy (callee : Function) (r : Renaming) (continuation : BlockId) (bound : Nat)
    (returns : List (BlockId × Option ValueId)) (g : Function) (c : BlockId) : Prop where
  live : (g.block (r.block c)).removed = false
  handlers : (g.block (r.block c)).handlers = []
  fresh : ∀ j ∈ (g.block (r.block c)).insns, bound ≤ j.index ∧ j.index < g.insns.size
  insns : Transcribed callee g r.value r.block (Jumps g r.value continuation (r.block c) returns)
    (callee.block c).insns (g.block (r.block c)).insns
  phis : ∃ phi : PhiId → PhiId, (g.block (r.block c)).phis = (callee.block c).phis.map phi ∧
    ∀ q ∈ (callee.block c).phis, (phi q).index < g.phis.size ∧
      (g.phi (phi q)).value = r.value (callee.phi q).value ∧
      (g.phi (phi q)).operands = (callee.phi q).operands.map r.value

/-- The callee has been copied into the caller. -/
structure Stocked (f callee : Function) (call : InsnId) (r : Renaming)
    (returns : List (BlockId × Option ValueId)) (size : Nat) (g : Function) : Prop where
  orderly : g.Orderly
  -- the caller
  kept : g.insn call = f.insn call
  insn : ∀ i : InsnId, i.index < f.insns.size →
    (g.insn i).op = (f.insn i).op ∧ (g.insn i).dest = (f.insn i).dest
  phi : ∀ q : PhiId, q.index < f.phis.size → g.phi q = f.phi q
  insns_le : f.insns.size ≤ g.insns.size
  phis_le : f.phis.size ≤ g.phis.size
  -- the copy
  bindings : Bindings callee (f.insn call).op.operands f.values.size size r.values
  room : f.values.size ≤ size ∧ size ≤ g.values.size
  named : ∀ w site, callee.Defines w site → r.values.get? w = some (r.value w)
  block_new : ∀ c, (callee.block c).removed = false →
    f.blocks.size < (r.block c).index ∧ (r.block c).index < g.blocks.size
  block_inj : ∀ c d, (callee.block c).removed = false → (callee.block d).removed = false →
    r.block c = r.block d → c = d
  block_onto : ∀ b : BlockId, f.blocks.size < b.index → b.index < g.blocks.size →
    ∃ c, (callee.block c).removed = false ∧ r.block c = b
  copy : ∀ c, (callee.block c).removed = false →
    BlockCopy callee r ⟨f.blocks.size⟩ f.insns.size returns g c
  -- the returns
  origin : ∀ p ∈ returns, ∃ c, (callee.block c).removed = false ∧ p.1 = r.block c ∧
    ∃ k ∈ (callee.block c).insns, ∃ u, (callee.insn k).op = .ret u ∧ p.2 = u.map r.value
  distinct : (returns.map Prod.fst).Nodup

lemma Stocked.congr {f callee g g' : Function} {r : Renaming}
    {returns : List (BlockId × Option ValueId)} {size : Nat}
    (h : Stocked f callee call r returns size g) (hcall : g.HasInsn call) (horderly : g'.Orderly)
    (hinsn : ∀ i, g.HasInsn i → g'.insn i = g.insn i) (hphi : ∀ q, g.HasPhi q → g'.phi q = g.phi q)
    (hblock : ∀ c, callee.LiveBlock c → ∃ preds,
      g'.block (r.block c) = { g.block (r.block c) with preds := preds })
    (hinsns : g.insns.size ≤ g'.insns.size) (hphis : g.phis.size ≤ g'.phis.size)
    (hblocks : g'.blocks.size = g.blocks.size) (hvalues : g.values.size ≤ g'.values.size) :
    Stocked f callee call r returns size g' where
  orderly := horderly
  kept := (hinsn call hcall).trans h.kept
  insn i hi := by
    rw [hinsn i (hi.trans_le h.insns_le)]
    exact h.insn i hi
  phi q hq := (hphi q (hq.trans_le h.phis_le)).trans (h.phi q hq)
  insns_le := h.insns_le.trans hinsns
  phis_le := h.phis_le.trans hphis
  bindings := h.bindings
  room := ⟨h.room.1, h.room.2.trans hvalues⟩
  named := h.named
  block_new c hc := by
    rw [hblocks]
    exact h.block_new c hc
  block_inj := h.block_inj
  block_onto b hle hlt := h.block_onto b hle (hblocks ▸ hlt)
  copy c hc := by
    obtain ⟨preds, hsame⟩ := hblock c hc
    have hcopy := h.copy c hc
    refine ⟨by rw [hsame, hcopy.live], by rw [hsame, hcopy.handlers], fun j hj => ?_, ?_, ?_⟩
    · rw [hsame] at hj
      obtain ⟨hle, hlt⟩ := hcopy.fresh j hj
      exact ⟨hle, hlt.trans_le hinsns⟩
    · rw [hsame]
      exact transcribed_mono hinsn hinsns (List.Subset.refl _) (fun j hj => (hcopy.fresh j hj).2)
        hcopy.insns
    · obtain ⟨phi, hlist, hvalues⟩ := hcopy.phis
      refine ⟨phi, (congrArg Ssa.Block.phis hsame).trans hlist, fun q hq => ?_⟩
      obtain ⟨hlt, hvalue, hoperands⟩ := hvalues q hq
      rw [hphi _ hlt]
      exact ⟨hlt.trans_le hphis, hvalue, hoperands⟩
  origin := h.origin
  distinct := h.distinct

/-- The copied blocks stand between the two parts of the split block; the call is still there. -/
structure Expanded (f callee : Function) (call : InsnId) (before after : List InsnId) (r : Renaming)
    (jump : InsnId) (returns : List (BlockId × Option ValueId)) (merge : List PhiId) (size : Nat)
    (g : Function) : Prop extends Stocked f callee call r returns size g where
  block : ∀ b : BlockId, b.index < f.blocks.size → g.block b = { f.block b with
    insns := if b = (f.insn call).block then before ++ [call, jump] else (f.block b).insns
    preds := (f.block b).preds.map fun p =>
      if p = (f.insn call).block then ⟨f.blocks.size⟩ else p }
  jumps : f.insns.size ≤ jump.index ∧ jump.index < g.insns.size ∧
    (g.insn jump).op = .goto (r.block callee.entry)
  jump_void : (g.insn jump).dest = none
  tail : g.block ⟨f.blocks.size⟩ = { insns := after, phis := merge, preds := returns.map Prod.fst }
  copy_preds : ∀ c, (callee.block c).removed = false → (g.block (r.block c)).preds =
    if c = callee.entry then [(f.insn call).block] else (callee.predecessors c).map r.block

/-- The result behind the returns, and the phis that merge it. -/
inductive Merge (f : Function) (call : InsnId) (size : Nat) (g : Function) :
    List (BlockId × Option ValueId) → Option ValueId → List PhiId → Prop
  | never : Merge f call size g [] none []
  | one (b : BlockId) (v : Option ValueId) : Merge f call size g [(b, v)] v []
  | unread {returns : List (BlockId × Option ValueId)} (dest : (f.insn call).dest = none) :
      Merge f call size g returns none []
  | phi {returns : List (BlockId × Option ValueId)} {q : PhiId} (several : returns ≠ [])
      (operands : returns.map Prod.snd = (g.phi q).operands.map some)
      (fresh : size ≤ (g.phi q).value.index) :
      Merge f call size g returns (some (g.phi q).value) [q]

/-- How the expanded body is connected. -/
def expandSeam (f : Function) (before after : List InsnId) (r : Renaming) (jump : InsnId)
    (result : Option ValueId) : Seam where
  before := before
  after := after
  body := [jump]
  value := r.value
  block := r.block
  tail := ⟨f.blocks.size⟩
  result := result

/-- An expanded call of a well-formed caller. -/
structure Opened (f callee : Function) (call : InsnId) (before after : List InsnId) (r : Renaming)
    (jump : InsnId) (returns : List (BlockId × Option ValueId)) (merge : List PhiId) (size : Nat)
    (g : Function) : Prop extends
    Expanded f callee call before after r jump returns merge size g, Unguarded f callee call where
  caller : f.WellFormed
  body : callee.WellFormed
  home : (f.block (f.insn call).block).insns = before ++ call :: after

variable {f callee g h : Function} {jump : InsnId} {before after l : List InsnId} {r : Renaming}
  {returns : List (BlockId × Option ValueId)} {merge : List PhiId} {size : Nat}
  {result : Option ValueId} {b c : BlockId}

lemma filter_ne (hl : call ∉ l) : l.filter (fun j => j ≠ call) = l :=
  filter_eq_self.2 fun _ hj => decide_eq_true fun heq => hl (heq ▸ hj)

lemma successors_of_goto {front : List InsnId}
    (hb : (h.block b).insns = front ++ [j]) (hop : (h.insn j).op = .goto target)
    (hplain : (h.block b).handlers = []) : h.successors b = [target] := by
  rw [successors, normalSuccessors_of_last hb (by rw [hop]; rfl), hop, hplain]
  rfl

lemma last_of_ret (hc : callee.WellFormed) (hlive : callee.LiveBlock c)
    (hk : k ∈ (callee.block c).insns) (hop : (callee.insn k).op = .ret u) :
    ∃ front, (callee.block c).insns = front ++ [k] ∧
      ∀ i ∈ front, (callee.insn i).op.isTerminator = false := by
  obtain ⟨front, last, hinsns, hlast, hfront⟩ := hc.terminated c hlive
  rw [hinsns] at hk
  rcases mem_append.1 hk with hk | hk
  · have hterm := hfront k hk
    rw [hop] at hterm
    cases hterm
  · obtain rfl := mem_singleton.1 hk
    exact ⟨front, hinsns, hfront⟩

lemma successors_of_ret (hc : callee.WellFormed) (hplain : ∀ b, (callee.block b).handlers = [])
    (hlive : callee.LiveBlock c) (hk : k ∈ (callee.block c).insns)
    (hop : (callee.insn k).op = .ret u) : callee.successors c = [] := by
  obtain ⟨front, hinsns, -⟩ := last_of_ret hc hlive hk hop
  rw [successors, normalSuccessors_of_last hinsns (by rw [hop]; rfl), hop, hplain]
  rfl

lemma follow_of_goto (hsucc : h.successors b = [target]) (hpreds : (h.predecessors target).Nodup)
    (hslot : (h.predecessors target)[slot]? = some b) :
    follow h b 0 env = .running target (h.block target).insns (merged h target slot env) :=
  follow_eq (by rw [hsucc]; rfl) (occurrence_of_nodup hpreds hslot)

lemma merged_of_no_phis (hphis : (h.block b).phis = []) : merged h b slot env = env := by
  funext v
  simp [merged, hphis]

lemma op_of_ne (hb : Rebound g call result h) (hne : j ≠ call) :
    (h.insn j).op = (g.insn j).op.mapOperands (rebind (g.insn call).dest result) ∧
      (h.insn j).dest = (g.insn j).dest := by
  rw [hb.insn j hne]
  exact ⟨rfl, rfl⟩

namespace Expanded

section

variable (he : Expanded f callee call before after r jump returns merge size g)
include he

lemma insn_rebound (hb : Rebound g call result h) {i : InsnId} (hlive : f.LiveInsn i)
    (hne : i ≠ call) :
    (h.insn i).op = (f.insn i).op.mapOperands (rebind (f.insn call).dest result) ∧
      (h.insn i).dest = (f.insn i).dest := by
  obtain ⟨hop, hdest⟩ := he.insn i (f.lt_insns_of_live hlive)
  rw [hb.insn i hne, he.kept]
  exact ⟨by rw [hop], hdest⟩

lemma value_lt
    (hf : f.WellFormed) {w : ValueId} (hw : callee.Defines w site) : (r.value w).index < size :=
  he.bindings.lt (fun v hv => hf.exact.lt_of_reads (show f.Reads v (.insn call) from hv))
    he.room.1 (he.named w site hw)

lemma result_cases (hb : Rebound g call result h) (hc : callee.WellFormed)
    (hmerge : Merge f call size g returns result merge) {x : ValueId} (hx : result = some x) :
    f.values.size ≤ x.index ∨ x ∈ (f.insn call).op.operands ∧ (f.insn call).dest ≠ some x := by
  cases hmerge with
  | never => cases hx
  | unread => cases hx
  | phi _ _ fresh =>
    cases hx
    exact .inl (he.room.1.trans fresh)
  | one b v =>
    obtain ⟨-, -, -, k, -, returned, hret, hreturned⟩ := he.origin _ mem_cons_self
    obtain ⟨u, rfl, rfl⟩ := Option.map_eq_some_iff.1 (hreturned.symm.trans hx)
    obtain ⟨site, hdef⟩ := Option.isSome_iff_exists.1 (hc.flow.defined u (.insn k)
      (by rw [Reads, hret]; exact mem_singleton_self _))
    have hnamed := he.named u site ((hc.exact.definition_iff u site).1 hdef)
    rcases he.bindings.cases u _ hnamed with ⟨-, index, -, -, hget⟩ | ⟨-, hle, -⟩
    · have hmem := mem_of_getElem? hget
      refine .inr ⟨hmem, fun hd => hb.ne _ (by rw [he.kept, hd]) hx ?_⟩
      rwa [he.kept]
    · exact .inl hle

end

end Expanded

namespace Opened

variable (he : Opened f callee call before after r jump returns merge size g)
include he

lemma call_lt : f.HasInsn call :=
  f.lt_insns_of_live (he.caller.exact.of_split he.home).1

lemma home_live : f.LiveBlock (f.insn call).block :=
  he.caller.orderly.live_of_split he.home

lemma home_lt : (f.insn call).block.index < f.blocks.size :=
  f.lt_blocks_of_live he.home_live

lemma not_mem : call ∉ before ∧ call ∉ after :=
  he.caller.exact.not_mem_of_split he.home

lemma jump_ne : jump ≠ call := fun heq =>
  absurd he.jumps.1 (Nat.not_le.2 (heq ▸ he.call_lt))

lemma ne_of_copy (hlive : callee.LiveBlock c) (hj : j ∈ (g.block (r.block c)).insns) : j ≠ call :=
  fun heq => absurd ((he.copy c hlive).fresh j hj).1 (Nat.not_le.2 (heq ▸ he.call_lt))

lemma rebind_operand (hreach : ∃ t, f.Trail ((f.insn call).block :: t)) {u : ValueId}
    (hu : callee.Reads u site) (result : Option ValueId) :
    rebind (g.insn call).dest result (r.value u) = r.value u := by
  obtain ⟨origin, hdef⟩ := Option.isSome_iff_exists.1 (he.body.flow.defined u site hu)
  have hnamed := he.named u origin ((he.body.exact.definition_iff u origin).1 hdef)
  rw [he.kept]
  exact rebind_of_ne (he.bindings.ne_dest he.caller he.home hreach hnamed)

section Rebound

variable (hb : Rebound g call result h)
include hb

lemma block_rebound (hlt : f.HasBlock b) : h.block b = { f.block b with
    insns := if b = (f.insn call).block then before ++ [jump] else (f.block b).insns
    preds := (f.block b).preds.map fun p =>
      if p = (f.insn call).block then ⟨f.blocks.size⟩ else p } := by
  rw [hb.block, he.block b hlt]
  split
  · have hbefore := filter_ne he.not_mem.1
    simp only [filter_append, hbefore]
    simp [he.jump_ne]
  · rename_i hne
    rw [filter_ne fun hmem => hne ((he.caller.exact.insns_iff b call).1 hmem).2.symm]

lemma tail_rebound : h.block ⟨f.blocks.size⟩ =
    { insns := after, phis := merge, preds := returns.map Prod.fst } := by
  rw [hb.block, he.tail]
  rw [filter_ne he.not_mem.2]

lemma copy_rebound (hlive : callee.LiveBlock c) : h.block (r.block c) = g.block (r.block c) := by
  rw [hb.block, filter_ne]
  intro hmem
  exact absurd ((he.copy c hlive).fresh call hmem).1 (Nat.not_le.2 he.call_lt)

/-! ## Edges -/

lemma successors_jump : h.successors (f.insn call).block = [r.block callee.entry] := by
  have hblock := he.block_rebound hb he.home_lt
  have hlast : (h.block (f.insn call).block).insns = before ++ [jump] := by rw [hblock, if_pos rfl]
  refine successors_of_goto hlast ?_ ?_
  · rw [(op_of_ne hb he.jump_ne).1, he.jumps.2.2]
    rfl
  · rw [hblock, he.uncovered]

lemma successors_return {p : BlockId × Option ValueId} (hp : p ∈ returns) :
    h.successors p.1 = [⟨f.blocks.size⟩] := by
  obtain ⟨c, hlive, hfst, k, hk, u, hop, -⟩ := he.origin p hp
  have hcopy := he.copy c hlive
  obtain ⟨front, hinsns, hfront⟩ := last_of_ret he.body hlive hk hop
  have htranscribed := hcopy.insns
  rw [hinsns] at htranscribed
  obtain ⟨copied, out, hjs, ⟨j, rfl, -, hgoto, -⟩, -⟩ := htranscribed.exits hop hfront
  have hj : j ∈ (g.block (r.block c)).insns := by simp [hjs]
  rw [hfst]
  have hlast : (h.block (r.block c)).insns = copied ++ [j] := by
    rw [he.copy_rebound hb hlive, hjs]
  refine successors_of_goto hlast ?_ ?_
  · rw [(op_of_ne hb (he.ne_of_copy hlive hj)).1, hgoto]
    rfl
  · rw [he.copy_rebound hb hlive, hcopy.handlers]

lemma successors_copy (hlive : callee.LiveBlock c)
    (hret : ∀ k ∈ (callee.block c).insns, ∀ u, (callee.insn k).op ≠ .ret u) :
    h.successors (r.block c) = (callee.successors c).map r.block := by
  have hcopy := he.copy c hlive
  obtain ⟨front, last, hinsns, hlast, hfront⟩ := he.body.terminated c hlive
  have hsucc : callee.successors c = (callee.insn last).op.targets := by
    rw [successors, normalSuccessors_of_last hinsns hlast, he.plain]
    exact append_nil _
  have htranscribed := hcopy.insns
  rw [hinsns] at htranscribed
  obtain ⟨copied, j, hjs, hop, -⟩ := htranscribed.ends hlast (hret last (by simp [hinsns])) hfront
  have hj : j ∈ (g.block (r.block c)).insns := by simp [hjs]
  have hop' := (op_of_ne hb (he.ne_of_copy hlive hj)).1
  rw [hop] at hop'
  have hblock := he.copy_rebound hb hlive
  rw [successors, normalSuccessors_of_last (hblock ▸ hjs) (by
    rw [hop', Op.isTerminator_mapOperands, Op.isTerminator_mapTargets, Op.isTerminator_mapOperands,
      hlast]), hop', hblock, hcopy.handlers, Op.targets_mapOperands, Op.targets_mapTargets,
    Op.targets_mapOperands, hsucc]
  exact append_nil _

lemma successors_caller (hlive : f.LiveBlock b) :
    h.successors ((expandSeam f before after r jump result).behind (f.insn call).block b) =
      f.successors b := by
  have hop : ∀ {front last}, (f.block b).insns = front ++ [last] → (f.insn last).op.isTerminator →
      (h.insn last).op = (f.insn last).op.mapOperands (rebind (f.insn call).dest result) :=
    fun hinsns hlast => (he.insn_rebound hb (he.caller.exact.of_split hinsns).1 fun heq =>
      Bool.noConfusion (he.op.symm.trans (heq ▸ hlast))).1
  rw [Seam.behind]
  split
  · rename_i heq
    subst heq
    have htail := he.tail_rebound hb
    obtain ⟨front, last, rfl, hlast, -⟩ := he.caller.ends_behind he.home he.op
    have hinsns : (f.block (f.insn call).block).insns = (before ++ call :: front) ++ [last] := by
      simp [he.home]
    exact successors_of_last hinsns (congrArg Ssa.Block.insns htail) hlast (hop hinsns hlast)
      (by rw [he.uncovered]; exact congrArg Ssa.Block.handlers htail)
  · rename_i hne
    have hblock := he.block_rebound hb (f.lt_blocks_of_live hlive)
    rw [if_neg hne] at hblock
    obtain ⟨front, last, hinsns, hlast, -⟩ := he.caller.terminated b hlive
    exact successors_of_last hinsns (by rw [hblock, hinsns]) hlast (hop hinsns hlast)
      (by rw [hblock])

section

variable (hreach : ∃ t, f.Trail ((f.insn call).block :: t))
  (hmerge : Merge f call size g returns result merge)
  (hunread : returns ≠ [] → result = none → ∀ d, (f.insn call).dest = some d →
    ∀ site, ¬f.Reads d site)
include hreach hmerge hunread

lemma leaves {returned : Option ValueId} {js : List InsnId}
    (hjumps : Jumps g r.value ⟨f.blocks.size⟩ (r.block c) returns returned js) :
    (expandSeam f before after r jump result).Leaves f callee call h c returned js := by
  intro D params env
  obtain ⟨j, rfl, -, hgoto, hmem, -⟩ := hjumps
  obtain ⟨slot, hslot⟩ := getElem?_of_mem hmem
  have htail := he.tail_rebound hb
  have hne : j ≠ call := fun heq => by
    rw [heq, he.kept] at hgoto
    exact Bool.noConfusion ((congrArg Op.isTerminator hgoto).symm.trans he.op)
  have hjump : (h.insn j).op.role = .jump := by
    rw [(op_of_ne hb hne).1, hgoto]
    rfl
  have hfollow : follow h (r.block c) 0 env = .running ⟨f.blocks.size⟩ after
      (merged h ⟨f.blocks.size⟩ slot env) := by
    have hpreds : h.predecessors ⟨f.blocks.size⟩ = returns.map Prod.fst :=
      congrArg Ssa.Block.preds htail
    have hback : (h.predecessors ⟨f.blocks.size⟩)[slot]? = some (r.block c) := by
      rw [hpreds, getElem?_map, hslot]
      rfl
    rw [follow_of_goto (he.successors_return hb hmem) (hpreds ▸ he.distinct) hback, htail]
  have hglides : Glides (next h params) 1 (.running (r.block c) [j] env)
      (.running ⟨f.blocks.size⟩ after (merged h ⟨f.blocks.size⟩ slot env)) :=
    .step ((next_of_jump hjump).trans (congrArg Move.silent hfollow)) (.refl _)
  have hphis : (h.block ⟨f.blocks.size⟩).phis = merge := congrArg Ssa.Block.phis htail
  refine ⟨1, _, hglides, ?_⟩
  cases hmerge with
  | never => cases hmem
  | one b v =>
    rw [merged_of_no_phis hphis]
    refine ⟨fun _ _ => rfl, fun _ _ => rfl, fun d hd => ?_⟩
    obtain rfl := (Prod.mk.inj (mem_singleton.1 hmem)).2
    cases returned with
    | none => exact .inl (hunread (by simp) rfl d hd)
    | some u => exact .inr ⟨r.value u, u, rfl, rfl, rfl⟩
  | unread hdest =>
    rw [merged_of_no_phis hphis]
    exact ⟨fun _ _ => rfl, fun _ _ => rfl, fun d hd => by rw [hdest] at hd; cases hd⟩
  | phi several operands fresh =>
    rename_i q
    have hvalue : (h.phi q).value = (g.phi q).value := by rw [hb.phi]
    have hother : ∀ v : ValueId, v.index < size → merged h ⟨f.blocks.size⟩ slot env v = env v := by
      intro v hv
      have hne : (h.phi q).value ≠ v := fun heq => absurd hv (by rw [← heq, hvalue]; omega)
      simp [merged, hphis, hne]
    refine ⟨fun v hv => hother v (hv.trans_le he.room.1), fun w hw => ?_, fun d _ => .inr ?_⟩
    · obtain ⟨site, hsite, -⟩ := hw
      exact hother _ (he.value_lt he.caller hsite)
    · -- the operand of the edge is what this block returns
      have hoperand : ((g.phi q).operands.map some)[slot]? = some (returned.map r.value) := by
        rw [← operands, getElem?_map, hslot]
        rfl
      rw [getElem?_map] at hoperand
      obtain ⟨x, hx, hreturned⟩ := Option.map_eq_some_iff.1 hoperand
      obtain ⟨u, rfl, rfl⟩ := Option.map_eq_some_iff.1 hreturned.symm
      refine ⟨_, u, rfl, rfl, ?_⟩
      have hkept : rebind (g.insn call).dest (some (g.phi q).value) (r.value u) = r.value u := by
        obtain ⟨-, -, -, k, -, u', hret, heq⟩ := he.origin _ hmem
        obtain ⟨u0, rfl, hvalue⟩ := Option.map_eq_some_iff.1 heq.symm
        have hread : callee.Reads u0 (.insn k) := by
          rw [Reads, hret]
          exact mem_singleton_self _
        rw [← hvalue]
        exact he.rebind_operand hreach hread _
      simp [merged, hphis, hb.phi, hx, hkept, expandSeam]

lemma transcribed (hlive : callee.LiveBlock c) :
    (expandSeam f before after r jump result).Transcribed f callee call h c (callee.block c).insns
      (h.block (r.block c)).insns := by
  rw [he.copy_rebound hb hlive, ← append_nil (g.block (r.block c)).insns]
  refine (he.copy c hlive).insns.transfer (.inl rfl) (fun i hi j hj hopj => ?_) fun v js hjs => ?_
  · obtain ⟨hop', hdest'⟩ := op_of_ne hb (he.ne_of_copy hlive hj)
    refine ⟨hop'.trans (Op.mapOperands_eq_self fun v hv => ?_), hdest'⟩
    rw [hopj, Op.operands_mapTargets, Op.operands_mapOperands] at hv
    obtain ⟨u, hu, rfl⟩ := mem_map.1 hv
    exact he.rebind_operand hreach (show callee.Reads u (.insn i) from hu) result
  · rw [append_nil]
    exact he.leaves hb hreach hmerge hunread hjs

end

lemma enters (hentry : (callee.block callee.entry).phis = []) (params : List D) (env : ValueId → D) :
    Glides (next h params) 1 (.running (f.insn call).block [jump] env)
      (.running (r.block callee.entry) (h.block (r.block callee.entry)).insns env) := by
  have hblock := he.copy_rebound hb he.body.entry_live
  have hcopy := he.copy _ he.body.entry_live
  have hpreds : h.predecessors (r.block callee.entry) = [(f.insn call).block] := by
    rw [predecessors, hblock, he.copy_preds _ he.body.entry_live, if_pos rfl]
  have hphis : (h.block (r.block callee.entry)).phis = [] := by
    obtain ⟨phi, hphi, -⟩ := hcopy.phis
    rw [hblock, hphi, hentry]
    rfl
  have hjump : (h.insn jump).op.role = .jump := by
    rw [(op_of_ne hb he.jump_ne).1, he.jumps.2.2]
    rfl
  have hback : (h.predecessors (r.block callee.entry))[0]? = some (f.insn call).block := by
    rw [hpreds]
    rfl
  have hfollow : follow h (f.insn call).block 0 env = _ :=
    follow_of_goto (he.successors_jump hb) (by rw [hpreds]; exact nodup_singleton _) hback
  rw [merged_of_no_phis hphis] at hfollow
  exact .step ((next_of_jump hjump).trans (congrArg Move.silent hfollow)) (.refl _)

/-- Once the call is taken out, a copy of the callee stands in its place. -/
theorem inlined (hentry : (callee.block callee.entry).phis = [])
    (hmerge : Merge f call size g returns result merge)
    (hunread : returns ≠ [] → result = none → ∀ d, (f.insn call).dest = some d →
      ∀ site, ¬f.Reads d site) :
    Semantics.Inlined f callee call h (expandSeam f before after r jump result) := by
  have hlt : ∀ {b : BlockId}, f.LiveBlock b → f.HasBlock b :=
    fun hb => f.lt_blocks_of_live hb
  have hblock := fun {b : BlockId} (hlive : f.LiveBlock b) =>
    he.block_rebound hb (hlt hlive)
  have hhead := he.block_rebound hb he.home_lt
  have htail := he.tail_rebound hb
  have hcopied := fun {c : BlockId} (hlive : callee.LiveBlock c) =>
    he.copy_rebound hb hlive
  have hpreds : ∀ {c : BlockId}, callee.predecessors c ≠ [] → callee.LiveBlock c ∧
      c ≠ callee.entry := by
    intro c hne
    obtain ⟨p, hp⟩ := exists_mem_of_ne_nil _ hne
    refine ⟨he.body.live_of_pred hp, ?_⟩
    rintro rfl
    exact hne he.body.flow.entry_preds
  exact
    { home := he.home
      uncovered := he.uncovered
      tail := .inr le_rfl
      entry := hentry
      head := by rw [hhead, if_pos rfl]; rfl
      head_handlers := by rw [hhead, he.uncovered]
      tail_handlers := congrArg Ssa.Block.handlers htail
      insns := fun b hlive hne => by rw [hblock hlive, if_neg hne]
      handlers := fun b hlive _ => by rw [hblock hlive]
      successors := fun b hlive => he.successors_caller hb hlive
      predecessors := fun b hlive => by rw [predecessors, hblock hlive]; rfl
      phis := fun b hlive => by rw [hblock hlive]
      phi_value := fun q hq => by rw [hb.phi, he.phi q (f.lt_phis_of_live hq)]
      phi_operands := fun q hq => by rw [hb.phi, he.phi q (f.lt_phis_of_live hq), he.kept]; rfl
      op := fun i hi hne => (he.insn_rebound hb hi hne).1
      dest := fun i hi hne => (he.insn_rebound hb hi hne).2
      result := fun _ hr => he.result_cases hb he.body hmerge hr
      plain := he.plain
      copy_plain := fun c hlive => by
        rw [show (expandSeam f before after r jump result).block c = r.block c from rfl, hcopied hlive,
          (he.copy c hlive).handlers]
      passed := fun _ i index w hi hw =>
        he.bindings.passed he.body.exact hi hw (he.named w (.insn i) hw)
      fresh := fun w hw => by
        obtain ⟨site, hsite, -⟩ := hw.carried
        exact he.bindings.fresh he.body.exact hw (he.named w site hsite)
      inj := fun w w' hw hw' heq => by
        obtain ⟨site, hsite, -⟩ := hw.carried
        obtain ⟨site', hsite', -⟩ := hw'
        have hget := he.named w site hsite
        refine he.bindings.inj w w' _ hget ?_ (he.bindings.fresh he.body.exact hw hget)
        rw [he.named w' site' hsite', show r.value w' = r.value w from heq.symm]
      block_inj := fun a b ha hb heq => he.block_inj a b ha hb heq
      copy_successors := fun c hlive hne => he.successors_copy hb hlive
        fun _ hk _ hret => hne (successors_of_ret he.body he.plain hlive hk hret)
      copy_predecessors := fun c hne => by
        obtain ⟨hlive, hentry'⟩ := hpreds hne
        rw [predecessors, show (expandSeam f before after r jump result).block = r.block from rfl,
          hcopied hlive, he.copy_preds c hlive, if_neg hentry']
      copy_insns := fun hreach c hne =>
        he.transcribed hb hreach hmerge hunread (hpreds hne).1
      copy_phis := fun hreach c hne => by
        obtain ⟨hlive, -⟩ := hpreds hne
        obtain ⟨phi, hphis, hphi⟩ := (he.copy c hlive).phis
        refine ⟨phi, (congrArg Ssa.Block.phis (hcopied hlive)).trans hphis, fun q hq => ?_⟩
        obtain ⟨-, hvalue, hoperands⟩ := hphi q hq
        rw [hb.phi]
        refine ⟨hvalue, ?_⟩
        rw [hoperands, map_map]
        exact map_congr_left fun u hu => he.rebind_operand hreach
          (show callee.Reads u (.phi q) from hu) result
      enters := fun hreach => ⟨_, he.transcribed hb hreach hmerge hunread he.body.entry_live,
        fun _ params env => ⟨1, he.enters hb hentry params env⟩⟩ }

end Rebound

end Opened

end Dissolve.Inline
