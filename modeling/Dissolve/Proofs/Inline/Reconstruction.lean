import Dissolve.Proofs.Inline.Resolving
import Dissolve.Proofs.Lift.Ensures

/-!
# Proofs.Inline.Reconstruction — an instance replaced by the values of its fields

Replacing an instance goes through four stages (`reconstruct_ok`): the values of all reads are looked
up, each read gives way to its value, the writes and constructor calls are removed, and what is left over
of the new phis is cleaned up.
-/

namespace Dissolve

open List

namespace Assoc

variable {α β : Type} {k : α} {v : β} {ps : List (α × β)} [DecidableEq α]

lemma mem_of_mem_put {p : α × β} (h : p ∈ put k v ps) : p = (k, v) ∨ p ∈ ps := by
  induction ps with
  | nil => exact .inl (mem_singleton.1 h)
  | cons q rest ih =>
    obtain ⟨a, b⟩ := q
    rw [put] at h
    split at h
    · exact (mem_cons.1 h).imp_right (mem_cons_of_mem _)
    · rcases mem_cons.1 h with rfl | h
      · exact .inr mem_cons_self
      · exact (ih h).imp_right (mem_cons_of_mem _)

lemma mem_of_find? (h : find? k ps = some v) : (k, v) ∈ ps := by
  induction ps with
  | nil => cases h
  | cons q rest ih =>
    obtain ⟨a, b⟩ := q
    rw [find?] at h
    split at h
    · rename_i hak
      subst hak
      cases h
      exact mem_cons_self
    · exact mem_cons_of_mem _ (ih h)

end Assoc

namespace Ssa.Function

/-! ## Reading what an instruction would give -/

section Forward

variable {f : Function} {i j : InsnId} {old new v : ValueId}

lemma Exact.front_forward (hf : f.Exact) (hlive : f.LiveInsn i)
    (hnew : f.HasValue new) (hji : j ≠ i) :
    ((f.replaceAllUses old new).2.withoutInsn i).front j = (f.front j).filter fun k => k ≠ i := by
  have hlive' : (f.replaceAllUses old new).2.LiveInsn i := by
    rwa [LiveInsn, hf.insn_replaceAllUses]
  rw [front, insn_withoutInsn hji, (hf.replaceAllUses old hnew).block_withoutInsn hlive',
    hf.insn_replaceAllUses, block_replaceAllUses, front]
  exact (filter_takeWhile_ne (by simpa using hji) _).symm

lemma Exact.availAt_forward (hf : f.Exact) (hdest : (f.insn i).dest = some old) (hne : old ≠ new)
    (hnew : f.AvailAt new i) (hdef : ((f.value new).definition).isSome) (hji : j ≠ i)
    (hj : f.LiveInsn j) (hv : f.AvailAt v j) :
    ((f.replaceAllUses old new).2.withoutInsn i).AvailAt (redirect old new v) j := by
  have hlive := hf.live_of_dest hdest
  obtain ⟨after, hlist⟩ := hf.insns_eq_front hlive
  obtain ⟨rest, hfront⟩ := hf.insns_eq_front hj
  obtain ⟨s, hs⟩ := Option.isSome_iff_exists.1 hdef
  rw [AvailAt, hf.front_forward hlive (f.lt_values_of_definition hs) hji, insn_withoutInsn hji,
    hf.insn_replaceAllUses]
  exact hf.availBefore_forward hlist hdest hnew hne hdef hfront hv

end Forward

end Ssa.Function

namespace Inline

open Ssa (Edit Function Op)
open Ssa.Function

variable {site : AllocationSite} {field : FieldRef} {root : TypeRef} {f g h : Function}
  {i read : InsnId} {v : ValueId} {perField : List (List (InsnId × ValueId) × List PhiId)}
  {replaced : Assoc ValueId ValueId}

/-! ## Sorting the uses -/

/-- The uses are what they are sorted as, the reads by their fields. -/
structure Uses.Sorted (uses : Uses) (f : Function) (site : AllocationSite) (root : TypeRef) : Prop where
  fields : uses.reads.keys.Nodup
  nonempty : ∀ p ∈ uses.reads.pairs, p.2 ≠ []
  reads : ∀ p ∈ uses.reads.pairs, ∀ i ∈ p.2, (f.insn i).op = .instanceGet p.1 site.value
  writes : ∀ i ∈ uses.writes, ∃ field value, (f.insn i).op = .instancePut field site.value value ∧
    value ≠ site.value
  constructors : ∀ i ∈ uses.constructors, ∃ kind target args,
    (f.insn i).op = .invoke kind target args ∧ isRootConstructor root target args = true

lemma sorted_addUse {uses uses' : Uses} {user : Site} (hs : uses.Sorted f site root)
    (huser : f.Reads site.value user) (hrun : (addUse site root uses user).run f = .ok uses' g) :
    uses'.Sorted f site root ∧ f = g := by
  cases user with
  | phi q => cases hrun
  | insn i =>
    obtain ⟨f0, f1, ⟨⟩, hrun1⟩ := Edit.ok_of_bind hrun
    split at hrun1
    · rename_i field object hop
      cases hrun1
      refine ⟨{ hs with
        fields := Assoc.nodup_keys_insert _ _ _ hs.fields
        nonempty := fun p hp => ?_
        reads := fun p hp j hj => ?_ }, rfl⟩
      all_goals rcases Assoc.mem_of_mem_put hp with rfl | hp
      · simp
      · exact hs.nonempty p hp
      · rcases mem_append.1 hj with hj | hj
        · cases hbefore : uses.reads.get? field with
          | none =>
            rw [hbefore] at hj
            cases hj
          | some before =>
            rw [hbefore] at hj
            exact hs.reads (field, before) (Assoc.mem_of_find? hbefore) j hj
        · obtain rfl := mem_singleton.1 hj
          rw [Reads, hop] at huser
          rw [hop, mem_singleton.1 huser]
      · exact hs.reads p hp j hj
    · rename_i field object value hop
      split at hrun1
      · rename_i hwrite
        obtain ⟨rfl, hne⟩ := hwrite
        cases hrun1
        refine ⟨{ hs with writes := fun j hj => ?_ }, rfl⟩
        rcases mem_append.1 hj with hj | hj
        · exact hs.writes j hj
        · obtain rfl := mem_singleton.1 hj
          exact ⟨field, value, hop, hne⟩
      · cases hrun1
    · rename_i kind target args hop
      split at hrun1
      · rename_i hroot
        cases hrun1
        refine ⟨{ hs with constructors := fun j hj => ?_ }, rfl⟩
        rcases mem_append.1 hj with hj | hj
        · exact hs.constructors j hj
        · obtain rfl := mem_singleton.1 hj
          exact ⟨kind, target, args, hop, hroot⟩
      · cases hrun1
    · cases hrun1

lemma sorted_foldlM {uses uses' : Uses} {users : List Site} (hs : uses.Sorted f site root)
    (husers : ∀ user ∈ users, f.Reads site.value user)
    (hrun : (users.foldlM (addUse site root) uses).run f = .ok uses' g) :
    uses'.Sorted f site root ∧ f = g := by
  induction users generalizing uses with
  | nil =>
    cases hrun
    exact ⟨hs, rfl⟩
  | cons user rest ih =>
    obtain ⟨huser, husers⟩ := forall_mem_cons.1 husers
    obtain ⟨uses1, f1, hfirst, hrest⟩ := Edit.ok_of_bind hrun
    obtain ⟨hs1, rfl⟩ := sorted_addUse hs huser hfirst
    exact ih hs1 husers hrest

lemma sorted_empty : Uses.Sorted {} f site root :=
  ⟨nodup_nil, nofun, nofun, nofun, nofun⟩

/-! ## Looking up the values of the reads -/

structure Resolved (site : AllocationSite) (field : FieldRef) (f : Function) (read : InsnId)
    (v : ValueId) : Prop where
  live : (f.insn read).removed = false
  holds : ∃ r, Stage site field (fun _ => False) r f ∧
    r.Holds f site field (f.insn read).block (f.front read) v

namespace Resolved

section

variable (hv : Resolved site field f read v)
include hv

lemma enlarges (he : Enlarges f g) (hg : g.Flow fun _ => False) : Resolved site field g read v := by
  obtain ⟨hlive, r, hstage, hholds⟩ := hv
  obtain ⟨hlive, hholds⟩ := hholds.front he hg.exact (hstage.stands.lt hstage.flow.exact) hlive
  exact ⟨hlive, r, hstage.enlarges he hg, hholds⟩

lemma availAt : f.AvailAt v read := by
  obtain ⟨hlive, r, hstage, hholds⟩ := hv
  exact hstage.availAt hlive hholds

lemma defined : ((f.value v).definition).isSome := by
  obtain ⟨-, r, hstage, hholds⟩ := hv
  exact hholds.defined hstage

end

end Resolved

lemma resolves_reads (reads : List InsnId) :
    Resolves site field (reads.mapM fun read => do return (read, ← heldAtRead site field read))
      fun r' f' resolved => ∀ p ∈ resolved, p.1 ∈ reads ∧ f'.LiveInsn p.1 ∧
        r'.Holds f' site field (f'.insn p.1).block (f'.front p.1) p.2 := by
  induction reads with
  | nil =>
    intro pending r f resolved r' f' h hrun
    cases hrun
    exact ⟨h, .refl h.flow.exact, .refl r, nofun⟩
  | cons read rest ih =>
    intro pending r f resolved r' f' h hrun
    rw [mapM_cons] at hrun
    obtain ⟨p, r1, f1, hfirst, hrun1⟩ := ok_of_bind hrun
    obtain ⟨ps, r2, f2, hrest, ⟨⟩⟩ := ok_of_bind hrun1
    obtain ⟨v, r3, f3, hheld, ⟨⟩⟩ := ok_of_bind hfirst
    obtain ⟨h1, he1, hlearns1, hlive, hholds⟩ :=
      resolves_heldAtRead read pending r f v r1 f1 h hheld
    obtain ⟨h2, he2, hlearns2, hps⟩ := ih pending r1 f1 ps r' f' h1 hrest
    refine ⟨h2, he1.trans he2, hlearns1.trans hlearns2, fun p hp => ?_⟩
    rcases mem_cons.1 hp with rfl | hp
    · exact ⟨mem_cons_self, (hholds.learns hlearns2).front he2 h2.flow.exact
        (h1.stands.lt h1.flow.exact) hlive⟩
    · obtain ⟨hmem, hp⟩ := hps p hp
      exact ⟨mem_cons_of_mem read hmem, hp⟩

section

variable (hf : f.Flow fun _ => False) (hs : site.StandsIn f)
include hf hs

lemma stage_empty : Stage site field (fun _ => False) {} f where
  flow := hf
  stands := hs
  sound := by
    refine ⟨fun _ hv => ?_, fun _ _ hv => ?_, fun _ _ hv => ?_, fun _ _ hv => ?_, fun _ _ hv => ?_⟩ <;>
      cases hv

lemma resolveField_ok {reads : List InsnId} {out : List (InsnId × ValueId) × List PhiId}
    (hrun : (resolveField site field reads).run f = .ok out g) :
    (g.Flow fun _ => False) ∧ Enlarges f g ∧
      ∀ p ∈ out.1, p.1 ∈ reads ∧ Resolved site field g p.1 p.2 := by
  obtain ⟨⟨resolved, r⟩, f1, hreads, ⟨⟩⟩ := Edit.ok_of_bind hrun
  obtain ⟨hstage, he, -, hresolved⟩ := resolves_reads reads _ _ _ _ _ _ (stage_empty hf hs) hreads
  refine ⟨hstage.flow, he, fun p hp => ?_⟩
  obtain ⟨hmem, hlive, hholds⟩ := hresolved p hp
  exact ⟨hmem, hlive, r, hstage, hholds⟩

lemma resolveFields_ok {pairs : List (FieldRef × List InsnId)}
    (hrun : (pairs.mapM fun (field, reads) => resolveField site field reads).run f = .ok perField g)
    :
    (g.Flow fun _ => False) ∧ Enlarges f g ∧
      ∀ p ∈ perField.flatMap Prod.fst, ∃ q ∈ pairs, p.1 ∈ q.2 ∧ Resolved site q.1 g p.1 p.2 := by
  induction pairs generalizing f perField with
  | nil =>
    cases hrun
    exact ⟨hf, .refl hf.exact, nofun⟩
  | cons q rest ih =>
    rw [mapM_cons] at hrun
    obtain ⟨out, f1, hfirst, hrun1⟩ := Edit.ok_of_bind hrun
    obtain ⟨outs, f2, hrest, ⟨⟩⟩ := Edit.ok_of_bind hrun1
    obtain ⟨hf1, he1, hout⟩ := resolveField_ok hf hs hfirst
    obtain ⟨hg, he2, houts⟩ := ih hf1 (hs.enlarges hf.exact he1) hrest
    refine ⟨hg, he1.trans he2, fun p hp => ?_⟩
    rcases mem_append.1 hp with hp | hp
    · obtain ⟨hmem, hresolved⟩ := hout p hp
      exact ⟨q, mem_cons_self, hmem, hresolved.enlarges he2 hg⟩
    · obtain ⟨q', hq', hp⟩ := houts p hp
      exact ⟨q', mem_cons_of_mem q hq', hp⟩

end

/-! ## Reads give way to their values -/

/-- Some reads have given way to their values. What the other reads give can be read where they stand,
under the name that it has now. -/
structure Replacing (replaced : Assoc ValueId ValueId) (rest : List (InsnId × ValueId))
    (f : Function) : Prop where
  wellFormed : f.WellFormed
  grounded : replaced.Grounded
  undefined : ∀ v w, replaced.get? v = some w → (f.value v).definition = none
  reads : ∀ p ∈ rest, (f.insn p.1).removed = false →
    ∃ field object, (f.insn p.1).op = .instanceGet field object
  avail : ∀ p ∈ rest, (f.insn p.1).removed = false → f.AvailAt (replaced.chase p.2) p.1
  defined : ∀ p ∈ rest, ((f.value (replaced.chase p.2)).definition).isSome

lemma replaceRead_ok {replaced' : Assoc ValueId ValueId} {p : InsnId × ValueId} (hf : f.Exact)
    (hrun : (replaceRead site replaced p).run f = .ok replaced' g) :
    ((f.insn p.1).dest = none ∧ replaced' = replaced ∧ g = f) ∨
    ∃ d, (f.insn p.1).dest = some d ∧ d ≠ replaced.chase p.2 ∧
      replaced' = replaced.insert d (replaced.chase p.2) ∧
      g = (f.replaceAllUses d (replaced.chase p.2)).2.withoutInsn p.1 := by
  obtain ⟨f0, f1, ⟨⟩, hrun1⟩ := Edit.ok_of_bind hrun
  cases hdest : (f.insn p.1).dest with
  | none =>
    simp only [hdest] at hrun1
    cases hrun1
    exact .inl ⟨rfl, rfl, rfl⟩
  | some d =>
    simp only [hdest] at hrun1
    by_cases hd : d = replaced.chase p.2
    · rw [if_pos hd] at hrun1
      cases hrun1
    · rw [if_neg hd] at hrun1
      obtain ⟨u, f1, ⟨⟩, hrun2⟩ := Edit.ok_of_bind hrun1
      obtain ⟨u, f2, hremove, ⟨⟩⟩ := Edit.ok_of_bind hrun2
      have hlive : (f.replaceAllUses d (replaced.chase p.2)).2.LiveInsn p.1 := by
        rw [LiveInsn, hf.insn_replaceAllUses]
        exact hf.live_of_dest hdest
      exact .inr ⟨d, rfl, hd, rfl, (removeInsn_ok hlive hremove).1⟩

namespace Replacing

variable {replaced' : Assoc ValueId ValueId} {rest : List (InsnId × ValueId)} {p : InsnId × ValueId}

lemma skip (hr : Replacing replaced (p :: rest) f) : Replacing replaced rest f where
  wellFormed := hr.wellFormed
  grounded := hr.grounded
  undefined := hr.undefined
  reads q hq := hr.reads q (mem_cons_of_mem p hq)
  avail q hq := hr.avail q (mem_cons_of_mem p hq)
  defined q hq := hr.defined q (mem_cons_of_mem p hq)

lemma step (hr : Replacing replaced (p :: rest) f)
    (hrun : (replaceRead site replaced p).run f = .ok replaced' g) :
    Replacing replaced' rest g ∧ f.Retains g := by
  have hf := hr.wellFormed.exact
  rcases replaceRead_ok hf hrun with ⟨-, rfl, rfl⟩ | ⟨d, hdest, hne, rfl, rfl⟩
  · exact ⟨hr.skip, .refl _⟩
  have hlive := hf.live_of_dest hdest
  obtain ⟨field, object, hop⟩ := hr.reads p mem_cons_self hlive
  obtain ⟨after, hlist⟩ := hf.insns_eq_front hlive
  have hnew := hr.avail p mem_cons_self hlive
  have hdef := hr.defined p mem_cons_self
  have hwf := hr.wellFormed.forward hlist hdest hnew (by rw [hop]; rfl) hne hdef
  have hlive' : (f.replaceAllUses d (replaced.chase p.2)).2.LiveInsn p.1 := by
    rwa [LiveInsn, hf.insn_replaceAllUses]
  have hdest' : ((f.replaceAllUses d (replaced.chase p.2)).2.insn p.1).dest = some d := by
    rwa [hf.insn_replaceAllUses]
  obtain ⟨s, hs⟩ := Option.isSome_iff_exists.1 hdef
  have hf1 := hf.replaceAllUses d (f.lt_values_of_definition hs)
  -- neither the value of the read nor what stands for it has been replaced before
  have hkey : ∀ v, ((f.value v).definition).isSome → replaced.get? v = none := by
    intro v hv
    by_contra hsome
    obtain ⟨w, hw⟩ := Option.ne_none_iff_exists'.1 hsome
    rw [hr.undefined v w hw] at hv
    cases hv
  have hkeyd : replaced.get? d = none := by
    refine hkey d ?_
    rw [(hf.definition_iff d (.insn p.1)).2 hdest]
    rfl
  have hchase : ∀ v, (replaced.insert d (replaced.chase p.2)).chase v =
      redirect d (replaced.chase p.2) (replaced.chase v) :=
    fun v => hr.grounded.chase_insert hkeyd (hkey _ hdef) hne v
  have hdefinition : ∀ v, v ≠ d → (((f.replaceAllUses d (replaced.chase p.2)).2.withoutInsn
      p.1).value v).definition = (f.value v).definition := by
    intro v hv
    rw [hf1.definition_withoutInsn hlive', definition_replaceAllUses]
    rw [hdest']
    exact fun heq => hv (Option.some.inj heq).symm
  have hother : ∀ q : InsnId × ValueId,
      ((f.replaceAllUses d (replaced.chase p.2)).2.withoutInsn p.1).LiveInsn q.1 →
      q.1 ≠ p.1 ∧ f.LiveInsn q.1 := by
    intro q hq
    have hqp : q.1 ≠ p.1 := by
      intro heq
      rw [heq, LiveInsn, insn_withoutInsn_self hlive'] at hq
      cases hq
    rw [LiveInsn, insn_withoutInsn hqp, hf.insn_replaceAllUses] at hq
    exact ⟨hqp, hq⟩
  have hretains : f.Retains ((f.replaceAllUses d (replaced.chase p.2)).2.withoutInsn p.1) := by
    refine (Retains.replaceAllUses hf d _).trans (.withoutInsn hf1 hlive' fun guard hguard => ?_)
    rw [hf.insn_replaceAllUses, redirectInsn, hop] at hguard
    cases hguard
  refine ⟨⟨hwf, hr.grounded.insert hkeyd (hkey _ hdef) hne, ?_, ?_, ?_, ?_⟩, hretains⟩
  · intro v w hv
    by_cases hvd : v = d
    · rw [hvd]
      exact hf1.definition_withoutInsn_dest hdest'
    · rw [hdefinition v hvd]
      rw [Assoc.get?_insert, if_neg (Ne.symm hvd)] at hv
      exact hr.undefined v w hv
  · intro q hq hqlive
    obtain ⟨hqp, hqlive⟩ := hother q hqlive
    obtain ⟨field', object', hop'⟩ := hr.reads q (mem_cons_of_mem p hq) hqlive
    rw [insn_withoutInsn hqp, hf.insn_replaceAllUses, redirectInsn, hop']
    exact ⟨field', _, rfl⟩
  · intro q hq hqlive
    obtain ⟨hqp, hqlive⟩ := hother q hqlive
    rw [hchase]
    exact hf.availAt_forward hdest hne hnew hdef hqp hqlive
      (hr.avail q (mem_cons_of_mem p hq) hqlive)
  · intro q hq
    rw [hchase, hdefinition _ (redirect_ne_old hne _)]
    by_cases hqd : replaced.chase q.2 = d
    · rwa [hqd, redirect_old]
    · rw [redirect_of_ne hqd]
      exact hr.defined q (mem_cons_of_mem p hq)

lemma loop (hr : Replacing replaced rest f)
    (hrun : (rest.foldlM (replaceRead site) replaced).run f = .ok replaced' g) :
    g.WellFormed ∧ f.Retains g := by
  induction rest generalizing replaced f with
  | nil =>
    cases hrun
    exact ⟨hr.wellFormed, .refl _⟩
  | cons p rest ih =>
    obtain ⟨replaced1, f1, hfirst, hrest⟩ := Edit.ok_of_bind hrun
    obtain ⟨hr1, hretains1⟩ := hr.step hfirst
    obtain ⟨hg, hretains2⟩ := ih hr1 hrest
    exact ⟨hg, hretains1.trans hretains2⟩

end Replacing

/-! ## Removing what is left -/

/-- An instruction that can be removed: it ends no block and does not fetch the caught exception. -/
structure Removable (f : Function) (i : InsnId) : Prop where
  lt : i.index < f.insns.size
  terminator : (f.insn i).op.isTerminator = false
  caught : ∀ guard, (f.insn i).op ≠ .moveException guard

lemma Removable.of_op {op : Op} (hop : (f.insn i).op = op) (hnop : op ≠ .nop)
    (hterm : op.isTerminator = false) (hcaught : ∀ guard, op ≠ .moveException guard) :
    Removable f i :=
  ⟨f.lt_insns_of_op (by rwa [hop]), by rw [hop, hterm], by rwa [hop]⟩

lemma Removable.persists (hi : Removable f i) (hp : f.Persists g)
    (hlive : g.LiveInsn i) : Removable g i := by
  obtain ⟨-, -, swap, hop⟩ := hp.insn i hi.lt hlive
  refine ⟨hi.lt.trans_le hp.size, ?_, fun guard hguard => ?_⟩
  · rw [hop, Op.isTerminator_mapOperands, hi.terminator]
  · rw [hop] at hguard
    cases hold : (f.insn i).op with
    | moveException old => exact hi.caught old hold
    | _ =>
      rw [hold] at hguard
      cases hguard

lemma removeInsn_retains (hg : g.WellFormed) (hretains : f.Retains g) (hi : Removable f i)
    (hrun : (Ssa.removeInsn i).run g = .ok () h) : h.WellFormed ∧ f.Retains h := by
  by_cases hlive : g.LiveInsn i
  · have hi' := hi.persists hretains.toPersists hlive
    exact ⟨hg.removeInsn hi'.terminator hrun, hretains.trans (.removeInsn hg.exact hi'.caught hrun)⟩
  · rw [removeInsn_removed (by simpa using hlive)] at hrun
    cases hrun
    exact ⟨hg, hretains⟩

lemma removeInsns_retains {is : List InsnId} (hg : g.WellFormed) (hretains : f.Retains g)
    (his : ∀ i ∈ is, Removable f i) (hrun : (is.forM Ssa.removeInsn).run g = .ok () h) :
    h.WellFormed ∧ f.Retains h := by
  induction is generalizing g with
  | nil =>
    cases hrun
    exact ⟨hg, hretains⟩
  | cons i rest ih =>
    obtain ⟨u, g1, hfirst, hrest⟩ :=
      Edit.ok_of_bind (x := Ssa.removeInsn i) (k := fun _ => rest.forM Ssa.removeInsn) hrun
    obtain ⟨hg1, hretains1⟩ := removeInsn_retains hg hretains (his i mem_cons_self) hfirst
    exact ih hg1 hretains1 (fun j hj => his j (mem_cons_of_mem i hj)) hrest

/-! ## The stages together -/

lemma checkFilled_ok {created : List PhiId} {u : Unit}
    (hrun : (created.forM (checkFilled site)).run f = .ok u g) : f = g := by
  induction created generalizing f with
  | nil =>
    cases hrun
    rfl
  | cons p rest ih =>
    obtain ⟨u, f1, hfirst, hrest⟩ := Edit.ok_of_bind (x := checkFilled site p)
      (k := fun _ => rest.forM (checkFilled site)) hrun
    obtain ⟨f0, f2, ⟨⟩, hcheck⟩ := Edit.ok_of_bind hfirst
    split at hcheck
    · cases hcheck
    · cases hcheck
      exact ih hrest

/-- The stages of a successful reconstruction. -/
structure Reconstructed (site : AllocationSite) (root : TypeRef) (f g : Function) where
  uses : Uses
  perField : List (List (InsnId × ValueId) × List PhiId)
  replaced : Assoc ValueId ValueId
  removedPhis : Nat
  resolved : Function
  unread : Function
  unwritten : Function
  unconstructed : Function
  cleaned : Function
  sorted : uses.Sorted f site root
  resolve : (uses.reads.pairs.mapM fun (field, reads) => resolveField site field reads).run f =
    .ok perField resolved
  replace : ((perField.flatMap Prod.fst).foldlM (replaceRead site) Assoc.empty).run resolved =
    .ok replaced unread
  removeWrites : (uses.writes.forM Ssa.removeInsn).run unread = .ok () unwritten
  removeConstructors : (uses.constructors.forM Ssa.removeInsn).run unwritten = .ok () unconstructed
  clean : Ssa.cleanUpPhis.run unconstructed = .ok removedPhis cleaned
  unused : (cleaned.value site.value).isUnused = true
  remove : (Ssa.removeInsn site.insn).run cleaned = .ok () g

theorem reconstruct_ok {answer : Reconstruction} (hf : f.Exact)
    (hrun : (reconstruct site root).run f = .ok answer g) :
    Nonempty (Reconstructed site root f g) := by
  obtain ⟨f0, f', ⟨⟩, hrun1⟩ := Edit.ok_of_bind hrun
  obtain ⟨uses, f', husers, hrun2⟩ := Edit.ok_of_bind hrun1
  obtain ⟨hsorted, rfl⟩ := sorted_foldlM sorted_empty (fun s => (hf.users_iff _ s).1) husers
  obtain ⟨perField, f1, hfields, hrun3⟩ := Edit.ok_of_bind hrun2
  obtain ⟨u, f', hcheck, hrun4⟩ := Edit.ok_of_bind hrun3
  obtain rfl := checkFilled_ok hcheck
  obtain ⟨u, f2, hreplace, hrun5⟩ := Edit.ok_of_bind hrun4
  obtain ⟨replaced, f', hreplace', ⟨⟩⟩ := Edit.ok_of_bind hreplace
  obtain ⟨u, f3, hwrites, hrun6⟩ := Edit.ok_of_bind hrun5
  obtain ⟨u, f4, hconstructors, hrun7⟩ := Edit.ok_of_bind hrun6
  obtain ⟨u, f5, hclean, hrun8⟩ := Edit.ok_of_bind hrun7
  obtain ⟨n, f', hclean', ⟨⟩⟩ := Edit.ok_of_bind hclean
  obtain ⟨f0, f', ⟨⟩, hrun9⟩ := Edit.ok_of_bind hrun8
  cases hunused : (f5.value site.value).isUnused with
  | false =>
    simp only [hunused] at hrun9
    cases hrun9
  | true =>
    simp only [hunused] at hrun9
    obtain ⟨u, f6, hremove, ⟨⟩⟩ := Edit.ok_of_bind hrun9
    exact ⟨{
      uses, perField, replaced, removedPhis := n
      resolved := f1, unread := f2, unwritten := f3, unconstructed := f4, cleaned := f5
      sorted := hsorted, resolve := hfields, replace := hreplace', removeWrites := hwrites
      removeConstructors := hconstructors, clean := hclean', unused := hunused, remove := hremove }⟩

lemma replacing_resolved {uses : Uses} {resolved : Function} (hf : f.WellFormed)
    (hs : site.StandsIn f) (hsorted : uses.Sorted f site root)
    (hresolve : (uses.reads.pairs.mapM fun (field, reads) => resolveField site field reads).run f =
      .ok perField resolved) : Replacing .empty (perField.flatMap Prod.fst) resolved := by
  obtain ⟨hflow, he, hresolved⟩ := resolveFields_ok hf.flow hs hresolve
  refine ⟨he.wellFormed hf hflow, Assoc.grounded_empty, fun v w hv => ?_, fun p hp _ => ?_,
    fun p hp _ => ?_, fun p hp => ?_⟩
  · cases hv
  · obtain ⟨q, hq, hmem, hp⟩ := hresolved p hp
    have hop := hsorted.reads q hq p.1 hmem
    have hlt := (Removable.of_op hop (by simp) rfl (by simp)).lt
    exact ⟨q.1, site.value, by rw [he.extended.insn p.1 hlt, hop]⟩
  · obtain ⟨q, -, -, hp⟩ := hresolved p hp
    exact hp.availAt
  · obtain ⟨q, -, -, hp⟩ := hresolved p hp
    exact hp.defined

/-- Without the reads, the writes and the calls of the root constructor a function is still well
formed. -/
lemma wellFormed_stripped {uses : Uses} {resolved unread unwritten : Function} (hf : f.WellFormed)
    (hs : site.StandsIn f) (hsorted : uses.Sorted f site root)
    (hresolve : (uses.reads.pairs.mapM fun (field, reads) => resolveField site field reads).run f =
      .ok perField resolved)
    (hreplace : ((perField.flatMap Prod.fst).foldlM (replaceRead site) Assoc.empty).run resolved =
      .ok replaced unread)
    (hwrites : (uses.writes.forM Ssa.removeInsn).run unread = .ok () unwritten)
    (hconstructors : (uses.constructors.forM Ssa.removeInsn).run unwritten = .ok () g) :
    g.WellFormed ∧ f.Retains g := by
  obtain ⟨-, he, -⟩ := resolveFields_ok hf.flow hs hresolve
  obtain ⟨hunread, hretains⟩ := (replacing_resolved hf hs hsorted hresolve).loop hreplace
  obtain ⟨hunwritten, hretains⟩ := removeInsns_retains hunread (he.retained.trans hretains)
    (fun i hi => by
      obtain ⟨field, value, hop, -⟩ := hsorted.writes i hi
      exact .of_op hop (by simp) rfl (by simp)) hwrites
  exact removeInsns_retains hunwritten hretains
    (fun i hi => by
      obtain ⟨kind, target, args, hop, -⟩ := hsorted.constructors i hi
      exact .of_op hop (by simp) rfl (by simp)) hconstructors

/-- Replacing an instance keeps a function well formed. The allocation is removed, and its value is no
longer read. -/
lemma wellFormed_reconstruct {answer : Reconstruction} (hf : f.WellFormed) (hs : site.StandsIn f)
    (hrun : (reconstruct site root).run f = .ok answer g) : g.WellFormed ∧ f.Retains g ∧
      (g.insn site.insn).removed ∧ ∀ s, ¬g.Reads site.value s := by
  obtain ⟨c⟩ := reconstruct_ok hf.exact hrun
  obtain ⟨hstripped, hretains⟩ :=
    wellFormed_stripped hf hs c.sorted c.resolve c.replace c.removeWrites c.removeConstructors
  obtain ⟨n, k, g', hclean, hcollapsed, hdrops, hcleaned⟩ := hstripped.cleanUpPhis_run
  rw [c.clean] at hclean
  cases hclean
  have hretains := (hretains.trans (.collapsed hcollapsed hstripped)).trans (.drops hdrops)
  obtain ⟨hg, hretains⟩ := removeInsn_retains hcleaned hretains
    (.of_op hs.op (by simp) rfl (by simp)) c.remove
  refine ⟨hg, hretains, removed_of_removeInsn c.remove, fun s hr => ?_⟩
  have hr := reads_of_removeInsn c.remove hr
  have hunused := isEmpty_iff.1 c.unused
  exact absurd ((hcleaned.exact.users_iff _ s).2 hr) (by rw [hunused]; exact not_mem_nil)

lemma regular_reconstruct {answer : Reconstruction} (hf : f.Regular) (hs : site.StandsIn f)
    (hrun : (reconstruct site root).run f = .ok answer g) : g.Regular ∧ f.Retains g := by
  obtain ⟨hg, hretains, -⟩ := wellFormed_reconstruct hf.toWellFormed hs hrun
  exact ⟨hf.retains hg hretains, hretains⟩

end Inline

end Dissolve
