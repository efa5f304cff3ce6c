import Dissolve.Proofs.Inline.Standing

/-!
# Proofs.Inline.Budget — how many instructions inlining adds

A copy of a body pays for what is not a parameter, and the jump to it stands for the call
(`insnCount_inlineCall`). Replacing an instance adds at most one zero per field that is read. As nothing
may read the instance in the end, a read of each such field disappears, and so does the allocation
(`AllocationSite.Standing.insnCount_reconstruct`).
-/

namespace Dissolve

open List

namespace Ssa.Function

variable {f g : Function} {given : ValueId → Prop} {n : Nat} {answer : Reconstruction}

/-- What is gone makes room for what is new. -/
lemma insnCount_le (hf : f.WellFormed) (hg : g.WellFormed) {l k : List InsnId}
    (hnew : ∀ i, g.LiveInsn i → f.LiveInsn i ∨ i ∈ l) (hnodup : k.Nodup)
    (hgone : ∀ i ∈ k, f.LiveInsn i ∧ (g.insn i).removed = true) :
    g.insnCount + k.length ≤ f.insnCount + l.length := by
  have hsub : k ++ g.insnIds ⊆ f.insnIds ++ l := by
    intro i hi
    rcases mem_append.1 hi with hi | hi
    · exact mem_append_left _ (hf.mem_insnIds.2 (hgone i hi).1)
    · exact mem_append.2 ((hnew i (hg.mem_insnIds.1 hi)).imp_left hf.mem_insnIds.2)
  have hdistinct : (k ++ g.insnIds).Nodup := by
    refine nodup_append.2 ⟨hnodup, hg.nodup_insnIds, fun i hi j hj => ?_⟩
    rintro rfl
    cases (hgone i hi).2.symm.trans (hg.mem_insnIds.1 hj)
  have hle := (subperm_of_subset hdistinct hsub).length_le
  rw [length_append, length_append] at hle
  exact (Nat.add_comm _ _).trans_le hle

lemma Sheds.collapsed (hf : f.WellFormed) (hc : f.Collapsed g)
    (hgiven : ∀ v q, f.Defines v (.phi q) → given v) : f.Sheds g given := by
  induction hc with
  | refl f => exact .refl f
  | @step f g q same live trivial rest ih =>
    have hstep : f.Sheds (f.collapsePhi q same) given := by
      refine ⟨fun v s hs => ?_, fun i hi => ?_, fun i _ v hne hv => ?_⟩
      · cases s with
        | insn i => rwa [Defines, hf.exact.insn_collapsePhi] at hs
        | phi q' =>
          rw [Defines, hf.exact.phi_collapsePhi live] at hs
          split at hs
          · cases hs.1
          · exact hs
      · rwa [hf.exact.insn_collapsePhi] at hi
      · rw [hf.exact.insn_collapsePhi, redirectInsn, Op.operands_mapOperands]
        exact mem_map.2 ⟨v, hv, redirect_of_ne fun heq => hne (heq ▸ hgiven _ q ⟨live, rfl⟩)⟩
    exact hstep.trans (ih (hf.collapsePhi live trivial) fun v q' hv =>
      hgiven v q' (hstep.defines _ _ hv))

lemma Sheds.cleaned (hf : f.WellFormed) (hrun : cleanUpPhis.run f = .ok n g)
    (hgiven : ∀ v q, f.Defines v (.phi q) → given v) : f.Sheds g given := by
  obtain ⟨m, k, g', hclean, hcollapsed, hdrops, -⟩ := hf.cleanUpPhis_run
  rw [hrun] at hclean
  cases hclean
  refine (collapsed hf hcollapsed hgiven).trans ⟨fun v s hs => ?_, fun i hi => ?_, fun i _ v _ hv => ?_⟩
  · cases s with
    | insn i => rwa [Defines, hdrops.insn] at hs
    | phi q =>
      rw [Defines, hdrops.phi] at hs
      split at hs
      · cases hs.1
      · exact hs
  · rwa [hdrops.insn] at hi
  · rwa [hdrops.insn]

lemma Sheds.removeInsns {is : List InsnId} (hrun : (is.forM Ssa.removeInsn).run f = .ok () g) :
    f.Sheds g given := by
  induction is generalizing f with
  | nil =>
    cases hrun
    exact .refl _
  | cons i is ih =>
    obtain ⟨u, f1, hfirst, hrest⟩ :=
      Edit.ok_of_bind (x := Ssa.removeInsn i) (k := fun _ => is.forM Ssa.removeInsn) hrun
    exact (removeInsn hfirst).trans (ih hrest)

end Ssa.Function

namespace Inline

open Ssa (Edit Function Op)
open Ssa.Function

variable {α β : Type} {f g callee : Function} {call : InsnId} {site : AllocationSite}

def AllocationSite.lost (site : AllocationSite) (f : Function) : Nat :=
  if (f.insn site.insn).removed then 1 else 0

lemma insnCount_inlineCall {answer : InlinedCall} (hf : f.Regular) (hc : callee.Regular)
    (hcopy : Copyable callee) (hrun : (inlineCall call callee).run f = .ok (some answer) g)
    (hs : site.StandsIn f) : g.insnCount + site.lost g ≤ f.insnCount + cost callee := by
  obtain ⟨hg, -⟩ := regular_inlineCall hf hc hcopy hrun
  obtain ⟨g', -, -, hshed, hremoved, new, hlength, hnew⟩ := inlineCall_stages hf hc hcopy hrun
  obtain ⟨kind, method, args, hinvoke⟩ := invoke_of_inlineCall hrun
  have hcall := hf.exact.live_of_op (i := call) (by simp [hinvoke])
  have hle {k : List InsnId} := insnCount_le hf.toWellFormed hg.toWellFormed (k := k)
    fun i hi => hnew i (hshed.live i hi)
  cases hlost : (g.insn site.insn).removed with
  | false =>
    have hle := hle (nodup_singleton call) (forall_mem_singleton.2 ⟨hcall, hremoved⟩)
    simp only [AllocationSite.lost, hlost, Bool.false_eq_true, if_false, length_singleton] at hle ⊢
    omega
  | true =>
    have hne : call ≠ site.insn := fun heq => by cases (heq ▸ hinvoke).symm.trans hs.op
    have hle := hle (k := [call, site.insn]) (by simpa using hne) (forall_mem_cons.2
      ⟨⟨hcall, hremoved⟩, forall_mem_singleton.2 ⟨hs.live hf.exact, hlost⟩⟩)
    simp only [AllocationSite.lost, hlost, if_true, length_cons, length_nil] at hle ⊢
    omega

/-! ## Looking up fields -/

/-- The room for the zero of a field, as long as it has not been created. -/
def Resolver.room (r : Resolver) : Nat :=
  if r.zero.isNone then 1 else 0

/-- A search adds no instruction but the zero. -/
def Thrifty (x : Resolving α) : Prop :=
  ∀ r f a r' f', (x.run r).run f = .ok (a, r') f' →
    f'.insns.size + r'.room ≤ f.insns.size + r.room

namespace Thrifty

lemma pure (a : α) : Thrifty (Pure.pure a) := by
  intro r f b r' f' hrun
  cases hrun
  exact le_rfl

lemma bind {x : Resolving α} {k : α → Resolving β} (hx : Thrifty x) (hk : ∀ a, Thrifty (k a)) :
    Thrifty (x >>= k) := by
  intro r f b r' f' hrun
  obtain ⟨a, r1, f1, hfirst, hrest⟩ := ok_of_bind hrun
  exact (hk a _ _ _ _ _ hrest).trans (hx _ _ _ _ _ hfirst)

lemma get_bind {k : Resolver → Resolving α} (hk : ∀ r, Thrifty (k r)) : Thrifty (get >>= k) :=
  fun r => hk r r

lemma function_bind {k : Function → Resolving α} (hk : ∀ f, Thrifty (k f)) :
    Thrifty (getThe Function >>= k) :=
  fun r f => hk f r f

lemma modify {k : Resolver → Resolver} (hk : ∀ r, (k r).zero = r.zero) :
    Thrifty (modify k : Resolving Unit) := by
  intro r f u r' f' hrun
  cases hrun
  rw [Resolver.room, hk]
  exact le_rfl

lemma mapM {find : β → Resolving α} (hfind : ∀ b, Thrifty (find b)) (bs : List β) :
    Thrifty (bs.mapM find) := by
  induction bs with
  | nil => exact pure _
  | cons b bs ih =>
    rw [mapM_cons]
    exact (hfind b).bind fun _ => ih.bind fun _ => pure _

end Thrifty

section Search

variable {field : FieldRef} {atStart : BlockId → Resolving ValueId}

lemma thrifty_zeroOf : Thrifty (zeroOf site field) := by
  intro r f v r' f' hrun
  rcases zeroOf_cases hrun with ⟨-, rfl, rfl⟩ | ⟨ty, n, position, hnone, -, -, -, rfl, rfl⟩
  · exact le_rfl
  · simp [Resolver.room, hnone, addValue]

lemma thrifty_heldBehind (hstart : ∀ b, Thrifty (atStart b)) (b : BlockId) (count : Nat) :
    Thrifty (heldBehind site field atStart b count) := by
  refine .function_bind fun f => ?_
  split
  · rename_i write _
    cases write with
    | value v => exact .pure v
    | allocation => exact thrifty_zeroOf
  · exact hstart b

lemma thrifty_heldAtEnd (hstart : ∀ b, Thrifty (atStart b)) (b : BlockId) :
    Thrifty (heldAtEnd site field atStart b) := by
  refine .get_bind fun r => ?_
  split
  · exact .pure _
  · exact .function_bind fun f => (thrifty_heldBehind hstart b _).bind fun v =>
      .bind (.modify fun _ => rfl) fun _ => .pure v

lemma thrifty_heldAtStart (fuel : Nat) (b : BlockId) : Thrifty (heldAtStart site field fuel b) := by
  induction fuel generalizing b with
  | zero => exact nofun
  | succ fuel ih =>
    refine .get_bind fun r => ?_
    split
    · exact .pure _
    · refine .function_bind fun f => ?_
      split
      · exact nofun
      · exact (thrifty_heldAtEnd ih _).bind fun v => .bind (.modify fun _ => rfl) fun _ => .pure v
      · refine Thrifty.bind (fun r f q r' f' hrun => ?_) fun phi =>
          (Thrifty.mapM (thrifty_heldAtEnd ih) _).bind fun operands => .bind
            (fun r f u r' f' hrun => ?_) fun _ => .function_bind fun _ => .pure _
        · obtain ⟨ty, -, rfl, rfl⟩ := openPhi_ok hrun
          exact le_rfl
        · cases hrun
          simp

lemma size_resolveFields {pairs : List (FieldRef × List InsnId)}
    {out : List (List (InsnId × ValueId) × List PhiId)}
    (hrun : (pairs.mapM fun (field, reads) => resolveField site field reads).run f = .ok out g) :
    g.insns.size ≤ f.insns.size + pairs.length := by
  have hread (field : FieldRef) (read : InsnId) : Thrifty (heldAtRead site field read) := by
    refine .function_bind fun f => ?_
    split
    · exact nofun
    · exact thrifty_heldBehind (thrifty_heldAtStart _) _ _
  induction pairs generalizing f out with
  | nil =>
    cases hrun
    exact le_rfl
  | cons q pairs ih =>
    rw [mapM_cons] at hrun
    obtain ⟨_, f1, hfirst, hrun⟩ := Ssa.Edit.ok_of_bind hrun
    obtain ⟨_, f2, hrest, ⟨⟩⟩ := Ssa.Edit.ok_of_bind hrun
    obtain ⟨⟨_, r⟩, f3, hreads, ⟨⟩⟩ := Ssa.Edit.ok_of_bind hfirst
    have hle := Thrifty.mapM (fun read => (hread q.1 read).bind fun v => .pure (read, v)) q.2
      _ _ _ _ _ hreads
    have hrest := ih hrest
    simp only [Resolver.room, Option.isNone_none, if_true, length_cons] at hle ⊢
    omega

end Search

/-! ## Replacing an instance -/

section Instance

variable {root : TypeRef}

lemma sheds_replaceReads {f0 : Function} {replaced replaced' : Assoc ValueId ValueId}
    {rest : List (InsnId × ValueId)} (hs : site.StandsIn f0) (hf0 : f0.Exact)
    (hne : ∀ p ∈ rest, p.1 ≠ site.insn) (h : f0.Sheds f (· ≠ site.value))
    (hr : Replacing replaced rest f)
    (hrun : (rest.foldlM (replaceRead site) replaced).run f = .ok replaced' g) :
    f0.Sheds g (· ≠ site.value) := by
  induction rest generalizing replaced f with
  | nil =>
    cases hrun
    exact h
  | cons p rest ih =>
    obtain ⟨replaced1, f1, hfirst, hrest⟩ := Ssa.Edit.ok_of_bind hrun
    refine ih (fun q hq => hne q (mem_cons_of_mem p hq)) (h.trans ?_) (hr.step hfirst).1 hrest
    have hf := hr.wellFormed.exact
    rcases replaceRead_ok hf hfirst with ⟨-, -, rfl⟩ | ⟨d, hdest, -, -, rfl⟩
    · exact .refl _
    · have hd : d ≠ site.value := by
        rintro rfl
        exact hne p mem_cons_self (hf0.insn_unique (h.defines _ (.insn p.1) hdest) hs.dest)
      have hstep : f.Sheds (f.replaceAllUses d (replaced.chase p.2)).2 (· ≠ site.value) :=
        .replaceAllUses hf (by exact hd) _
      refine hstep.trans (.withoutInsn ?_)
      rw [LiveInsn, hf.insn_replaceAllUses]
      exact hf.live_of_dest hdest

/-- Behind the search everything is taken away from, and no reader of the instance is left. -/
lemma Reconstructed.sheds (hf : f.WellFormed) (hs : site.StandsIn f)
    (c : Reconstructed site root f g) : (∀ i, g.LiveInsn i →
      c.resolved.LiveInsn i) ∧
      ∀ i, f.Reads site.value (.insn i) → (g.insn i).removed = true := by
  obtain ⟨hflow, he, hresolved⟩ := resolveFields_ok hf.flow hs c.resolve
  have hstands := hs.enlarges hf.exact he
  have hreads : c.resolved.Sheds c.unread (· ≠ site.value) := by
    refine sheds_replaceReads hstands hflow.exact (fun p hp heq => ?_) (.refl _)
      (replacing_resolved hf hs c.sorted c.resolve) c.replace
    obtain ⟨q, hq, hmem, -⟩ := hresolved p hp
    cases (c.sorted.reads q hq p.1 hmem).symm.trans (heq ▸ hs.op)
  have hstripped := hreads.trans ((Sheds.removeInsns c.removeWrites).trans
    (.removeInsns c.removeConstructors))
  obtain ⟨hwf, -⟩ :=
    wellFormed_stripped hf hs c.sorted c.resolve c.replace c.removeWrites c.removeConstructors
  have hcleaned := hstripped.trans (.cleaned hwf c.clean fun v q hdef => by
    rintro rfl
    have hphi := hstripped.defines _ _ hdef
    cases hflow.exact.defines_unique hphi (t := .insn site.insn) hstands.dest)
  have hremove : c.cleaned.Sheds g (· ≠ site.value) := .removeInsn c.remove
  refine ⟨fun i hi => hcleaned.live i (hremove.live i hi), fun i hi => ?_⟩
  by_contra hleft
  have hlive := hremove.live i (by simpa using hleft)
  have hreader : c.cleaned.Reads site.value (.insn i) := by
    refine hcleaned.reads i hlive _ (fun h => h rfl) ?_
    rwa [he.extended.insn i (lt_of_reads hi)]
  obtain ⟨n, k, g', hclean, -, -, hcleanwf⟩ := hwf.cleanUpPhis_run
  rw [c.clean] at hclean
  cases hclean
  have huser := (hcleanwf.exact.users_iff _ _).2 hreader
  rw [isEmpty_iff.1 c.unused] at huser
  cases huser

/-- The reads that disappear pay for the zeros, and the allocation is gained. -/
lemma AllocationSite.StandsIn.insnCount_reconstruct (hs : site.StandsIn f) (hf : f.WellFormed)
    (hrun : (reconstruct site root).run f = .ok answer g) : g.insnCount < f.insnCount := by
  obtain ⟨c⟩ := reconstruct_ok hf.exact hrun
  obtain ⟨hg, hretains, hgone, -⟩ := wellFormed_reconstruct hf hs hrun
  obtain ⟨hlive, hread⟩ := c.sheds hf hs
  -- one read of each field
  let first (q : FieldRef × List InsnId) : InsnId := q.2.headD site.insn
  have hop : ∀ q ∈ c.uses.reads.pairs, (f.insn (first q)).op = .instanceGet q.1 site.value := by
    intro q hq
    refine c.sorted.reads q hq _ ?_
    cases hreads : q.2 with
    | nil => exact absurd hreads (c.sorted.nonempty q hq)
    | cons i rest => simp [first, hreads]
  have hnodup : (site.insn :: c.uses.reads.pairs.map first).Nodup := by
    refine nodup_cons.2 ⟨fun hmem => ?_, pairwise_map.2 ?_⟩
    · obtain ⟨q, hq, heq⟩ := mem_map.1 hmem
      cases (hop q hq).symm.trans (heq ▸ hs.op)
    · refine (pairwise_map.1 c.sorted.fields).imp_of_mem fun {p q} hp hq hne heq => hne ?_
      exact (Op.instanceGet.inj ((hop p hp).symm.trans (heq ▸ hop q hq))).1
  have hle := insnCount_le hf hg (l := (range' f.insns.size c.uses.reads.pairs.length).map InsnId.mk)
    (fun i hi => ?_) hnodup (forall_mem_cons.2 ⟨⟨hs.live hf.exact, hgone⟩, forall_mem_map.2 fun q hq =>
      ⟨hf.exact.live_of_op (by simp [hop q hq]), hread _ (by rw [Reads, hop q hq]; simp [Op.operands])⟩⟩)
  · rw [length_cons, length_map, length_map, length_range'] at hle
    omega
  · rcases Nat.lt_or_ge i.index f.insns.size with hlt | hge
    · exact .inl (hretains.insn i hlt hi).1
    · have hlt := (c.resolved.lt_insns_of_live (hlive i hi)).trans_le (size_resolveFields c.resolve)
      exact .inr (mem_map.2 ⟨i.index, mem_range'_1.2 ⟨hge, hlt⟩, rfl⟩)

lemma AllocationSite.Standing.insnCount_reconstruct (hs : site.Standing f) (hf : f.Regular)
    (hrun : (reconstruct site root).run f = .ok answer g) :
    g.insnCount < f.insnCount + site.lost f := by
  rcases hs with hs | hs
  · exact (hs.insnCount_reconstruct hf.toWellFormed hrun).trans_le (Nat.le_add_right _ _)
  · obtain ⟨hg, -⟩ := Standing.regular_reconstruct (.inr hs) hf hrun
    obtain ⟨-, hgone, hundefined⟩ := hs
    obtain ⟨n, h, hclean, hremove⟩ :=
      reconstruct_unused (unread_of_undefined hf.toWellFormed hundefined) hrun
    have hshed : f.Sheds g fun _ => True :=
      (Sheds.cleaned hf.toWellFormed hclean fun _ _ _ => trivial).trans (.removeInsn hremove)
    have hle := insnCount_le hf.toWellFormed hg.toWellFormed (k := []) (l := [])
      (fun i hi => .inl (hshed.live i hi)) nodup_nil (forall_mem_nil _)
    simp only [lost, hgone, if_true]
    exact Nat.lt_succ_of_le hle

end Instance

end Inline

end Dissolve
