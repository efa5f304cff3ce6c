import Dissolve.Proofs.Inline.Reconstruction
import Dissolve.Proofs.Ssa.Trimmed

/-!
# Proofs.Inline.Search — looking a field up ends at a write

A search for what a field holds goes back from a read of the field. Where every block is reached, it
ends: along single predecessors it comes nearer to the entry, every phi it makes leaves one block less
without a record (`Resolver.unknown`), and as the allocation is on every way to the read it never comes
to a block without predecessors. So neither of the two causes for a search to fail occurs
(`avoids_heldAtStart`).
-/

namespace Dissolve.Ssa.Function

open List

variable {f : Function} {b c : BlockId} {t : List BlockId}

/-- A trail to a block can be walked without coming to any block twice. -/
lemma Trail.simple (h : f.Trail (b :: t)) : ∃ t', f.Trail (b :: t') ∧ (b :: t').Nodup := by
  generalize hl : b :: t = l at h
  induction h generalizing b t with
  | start =>
    obtain ⟨rfl, -⟩ := cons.inj hl
    exact ⟨[], .start, nodup_singleton _⟩
  | @step p c t walked edge ih =>
    obtain ⟨rfl, -⟩ := cons.inj hl
    obtain ⟨t', ht', hnodup⟩ := ih rfl
    by_cases hb : b ∈ p :: t'
    · obtain ⟨t'', ht'', hsuffix⟩ := ht'.until hb
      exact ⟨t'', ht'', hnodup.sublist hsuffix.sublist⟩
    · exact ⟨p :: t', .step ht' edge, nodup_cons.2 ⟨hb, hnodup⟩⟩

lemma lt_blocks_of_pred (hb : f.predecessors b ≠ []) : f.HasBlock b := by
  by_contra hle
  rw [predecessors, f.block_of_size_le (Nat.le_of_not_lt hle)] at hb
  exact hb rfl

lemma Trail.lt_of_mem (h : f.Trail (b :: t)) (hc : c ∈ (b :: t).dropLast) : f.HasBlock c := by
  generalize hl : b :: t = l at h hc
  induction h generalizing b t with
  | start => cases hc
  | @step p d t walked edge ih =>
    rcases mem_cons.1 hc with rfl | hc
    · exact lt_blocks_of_pred (ne_nil_of_mem edge)
    · exact ih rfl hc

lemma Trail.short (h : f.Trail (b :: t)) : ∃ t', f.Trail (b :: t') ∧ t'.length ≤ f.blocks.size := by
  obtain ⟨t', ht', hnodup⟩ := h.simple
  refine ⟨t', ht', ?_⟩
  have hsub : (b :: t').dropLast ⊆ (range f.blocks.size).map BlockId.mk := fun c hc =>
    mem_map.2 ⟨c.index, mem_range.2 (ht'.lt_of_mem hc), rfl⟩
  have hle := (subperm_of_subset (hnodup.sublist (dropLast_sublist _)) hsub).length_le
  simpa using hle

end Dissolve.Ssa.Function

namespace Dissolve.Inline

open List
open Ssa (Edit Function Op)
open Ssa.Function

variable {α β : Type} {site : AllocationSite} {field : FieldRef} {root : TypeRef} {r r' : Resolver}
  {f g : Function} {b p : BlockId} {read : InsnId} {n fuel : Nat} {pending : PhiId → Prop}
  {atStart find : BlockId → Resolving ValueId}

/-! ## Failures -/

/-- An edit that does not fail because a search came to its end without a write. -/
def Avoids (x : Edit α) (f : Function) : Prop :=
  ∀ method offset field b g,
    x.run f ≠ .error (.inliningPostcondition method offset (.readNotReached field b)) g

namespace Avoids

variable {x : Edit α} {xs : List β}

lemma of_ok {a : α} (h : x.run f = .ok a g) : Avoids x f := by
  intro method offset field b g' herror
  rw [h] at herror
  cases herror

lemma bind {k : α → Edit β} (hx : Avoids x f) (hk : ∀ a g, x.run f = .ok a g → Avoids (k a) g) :
    Avoids (x >>= k) f := by
  intro method offset field b g herror
  rw [EStateM.run_bind] at herror
  cases hrun : x.run f with
  | ok a f1 =>
    rw [hrun] at herror
    exact hk a f1 hrun method offset field b g herror
  | error e f1 =>
    rw [hrun] at herror
    exact hx method offset field b f1 (hrun.trans (by cases herror; rfl))

lemma seq {x : Resolving α} {k : α → Resolving β} (hx : Avoids (x.run r) f)
    (hk : ∀ a r' g, (x.run r).run f = .ok (a, r') g → Avoids ((k a).run r') g) :
    Avoids ((x >>= k).run r) f := by
  exact hx.bind fun p g => hk p.1 p.2 g

lemma lift (hx : Avoids x f) : Avoids ((liftM x : Resolving α).run r) f :=
  hx.bind fun _ _ _ => of_ok rfl

lemma forM {x : β → Edit Unit} (hx : ∀ b f, Avoids (x b) f) (f : Function) :
    Avoids (xs.forM x) f := by
  induction xs generalizing f with
  | nil => exact of_ok (g := f) rfl
  | cons b rest ih => exact (hx b f).bind fun _ g _ => ih g

lemma foldlM {x : α → β → Edit α} (hx : ∀ a b f, Avoids (x a b) f) (a : α) (f : Function) :
    Avoids (xs.foldlM x a) f := by
  induction xs generalizing a f with
  | nil => exact of_ok (g := f) rfl
  | cons b rest ih =>
    exact (hx a b f).bind fun a g _ => ih a g

end Avoids

lemma avoids_obstruct {cause : Leftover} (hcause : ∀ field b, cause ≠ .readNotReached field b) :
    Avoids (obstruct site cause : Edit α) f := by
  intro method offset field b g herror
  cases herror
  exact hcause field b rfl

lemma avoids_refuse (cause : Malformation) : Avoids (Ssa.refuse cause : Edit α) f := by
  intro method offset field b g herror
  cases herror

lemma avoids_fieldKind : Avoids (fieldKind site field) f := by
  unfold fieldKind
  split
  · exact .of_ok (g := f) rfl
  · exact avoids_obstruct nofun

lemma avoids_zeroOf : Avoids ((zeroOf site field).run r) f := by
  refine Avoids.seq (.of_ok (g := f) rfl) fun s r1 g hget => ?_
  cases hget
  split
  · exact .of_ok (g := f) rfl
  · refine Avoids.seq avoids_fieldKind.lift fun ty r1 g _ => ?_
    refine Avoids.seq (.of_ok rfl) fun v r2 g _ => Avoids.seq (.bind ?_ fun _ _ _ => .of_ok rfl)
      fun _ _ _ _ => .of_ok rfl
    refine Avoids.lift (.bind (.of_ok rfl) fun f' g _ => ?_)
    split
    · exact avoids_refuse _
    · exact .of_ok rfl

lemma avoids_openPhi : Avoids ((openPhi site field b).run r) f :=
  Avoids.seq avoids_fieldKind.lift fun _ _ _ _ => .of_ok rfl

lemma avoids_heldBehind
    (hstart : written? f site field ((f.block b).insns.take n) = none → Avoids ((atStart b).run r) f) :
    Avoids ((heldBehind site field atStart b n).run r) f := by
  refine Avoids.seq (.of_ok (g := f) rfl) fun f' r1 g hget => ?_
  cases hget
  cases hwritten : lastWrite? f site field b n with
  | none => exact hstart hwritten
  | some write =>
    cases write with
    | value v => exact .of_ok (g := f) rfl
    | allocation => exact avoids_zeroOf

lemma avoids_heldAtEnd
    (hstart : written? f site field (f.block b).insns = none → Avoids ((atStart b).run r) f) :
    Avoids ((heldAtEnd site field atStart b).run r) f := by
  refine Avoids.seq (.of_ok (g := f) rfl) fun s r1 g hget => ?_
  cases hget
  split
  · exact .of_ok (g := f) rfl
  · refine Avoids.seq (.of_ok (g := f) rfl) fun f' r1 g hget => ?_
    cases hget
    refine Avoids.seq (avoids_heldBehind fun hnone => ?_) fun _ _ _ _ => .of_ok rfl
    rw [take_length] at hnone
    exact hstart hnone

lemma avoids_mapM {bs : List BlockId}
    (hfind : ∀ b, Resolves site field (find b) fun r' _ v => r'.outgoing.get? b = some v)
    (hends : ∀ b ∈ bs, ∀ r' g, Stage site field pending r' g → Enlarges f g → r.Learns r' →
      Avoids ((find b).run r') g) (h : Stage site field pending r f) :
    Avoids ((bs.mapM find).run r) f := by
  induction bs generalizing r f with
  | nil => exact .of_ok (g := f) rfl
  | cons b rest ih =>
    rw [mapM_cons]
    obtain ⟨hb, hrest⟩ := forall_mem_cons.1 hends
    refine (hb r f h (.refl h.flow.exact) (.refl r)).seq fun v r1 f1 hrun => ?_
    obtain ⟨h1, he1, hlearns1, -⟩ := hfind b pending r f v r1 f1 h hrun
    refine (ih (fun c hc r' g hg he hlearns => ?_) h1).seq fun _ _ _ _ => .of_ok rfl
    exact hrest c hc r' g hg (he1.trans he) (hlearns1.trans hlearns)

/-! ## Searches -/

structure Near (n : Nat) (f : Function) : Prop where
  bounded : ∀ b, f.predecessors b ≠ [] → b.index < n
  live : ∀ b, ∀ p ∈ f.predecessors b, (f.block p).removed = false
  trail : ∀ b, (f.block b).removed = false → ∃ t, f.Trail (b :: t) ∧ t.length ≤ n

lemma Near.enlarges (h : Near n f) (he : Enlarges f g) : Near n g where
  bounded b := by
    rw [he.extended.preds]
    exact h.bounded b
  live b p hp := by
    rw [he.extended.preds] at hp
    rw [he.retained.removed]
    exact h.live b p hp
  trail b hb := by
    rw [he.retained.removed] at hb
    obtain ⟨t, ht, hlen⟩ := h.trail b hb
    exact ⟨t, ht.congr he.extended.preds, hlen⟩

lemma near_of_connected (hlive : ∀ b, ∀ p ∈ f.predecessors b, f.LiveBlock p)
    (hf : f.Connected) : Near f.blocks.size f where
  bounded _ := lt_blocks_of_pred
  live := hlive
  trail b hb := by
    obtain ⟨t, ht⟩ := hf b hb
    exact ht.short

def Resolver.unknown (r : Resolver) (n : Nat) : Nat :=
  ((Finset.range n).filter fun k => r.incoming.get? ⟨k⟩ = none).card

lemma Resolver.Learns.unknown_subset (h : r.Learns r') (n : Nat) :
    ((Finset.range n).filter fun k => r'.incoming.get? ⟨k⟩ = none) ⊆
      (Finset.range n).filter fun k => r.incoming.get? ⟨k⟩ = none := by
  refine Finset.monotone_filter_right _ fun k _ hk => ?_
  by_contra hsome
  obtain ⟨v, hv⟩ := Option.ne_none_iff_exists'.1 hsome
  rw [h.incoming _ v hv] at hk
  cases hk

lemma Resolver.Learns.unknown_lt (h : r.Learns r') (hb : b.index < n)
    (hnone : r.incoming.get? b = none) (hsome : r'.incoming.get? b ≠ none) :
    r'.unknown n < r.unknown n := by
  refine Finset.card_lt_card ((Finset.ssubset_iff_of_subset (h.unknown_subset n)).2 ?_)
  refine ⟨b.index, Finset.mem_filter.2 ⟨Finset.mem_range.2 hb, hnone⟩, fun hmem => ?_⟩
  exact hsome (Finset.mem_filter.1 hmem).2

lemma written?_of_mem (hs : site.StandsIn f) {l : List InsnId} (hmem : site.insn ∈ l) :
    written? f site field l ≠ none := by
  intro hnone
  have hwrite := findSome?_eq_none_iff.1 hnone site.insn (mem_reverse.2 hmem)
  rw [writtenBy?, hs.op] at hwrite
  exact absurd hwrite (by simp)

/-- The allocation is on every way to the start of a block. -/
def AllocationSite.Ahead (site : AllocationSite) (f : Function) (b : BlockId) : Prop :=
  ∀ t, f.Trail (b :: t) → (f.insn site.insn).block ∈ t

lemma AllocationSite.Ahead.pred (h : site.Ahead f b) (hp : p ∈ f.predecessors b)
    (hs : site.StandsIn f) (hf : f.Exact)
    (hnone : written? f site field (f.block p).insns = none) : site.Ahead f p := by
  intro t ht
  refine (mem_cons.1 (h (p :: t) (.step ht hp))).resolve_left fun heq => ?_
  exact written?_of_mem hs ((hf.insns_iff p _).2 ⟨hs.live hf, heq⟩) hnone

lemma AllocationSite.Ahead.enlarges (h : site.Ahead f b) (hs : site.StandsIn f) (hf : f.Exact)
    (he : Enlarges f g) : site.Ahead g b := by
  intro t ht
  rw [he.extended.insn _ (hs.lt hf)]
  exact h t (ht.congr fun b => (he.extended.preds b).symm)

/-- With enough fuel a search comes to a write. -/
theorem avoids_heldAtStart (fuel : Nat) (hnear : Near n f) (h : Stage site field pending r f)
    (hahead : site.Ahead f b)
    (hfuel : ∃ t, f.Trail (b :: t) ∧ t.length + r.unknown n * (n + 1) < fuel) :
    Avoids ((heldAtStart site field fuel b).run r) f := by
  induction fuel generalizing b pending r f with
  | zero =>
    obtain ⟨t, -, ht⟩ := hfuel
    omega
  | succ fuel ih =>
    obtain ⟨t, ht, hfuel⟩ := hfuel
    refine Avoids.seq (.of_ok (g := f) rfl) fun s r1 g hget => ?_
    cases hget
    cases hin : r.incoming.get? b with
    | some v => exact .of_ok (g := f) rfl
    | none =>
      refine Avoids.seq (.of_ok (g := f) rfl) fun f' r1 g hget => ?_
      cases hget
      split
      · rename_i hnil
        -- the entry is behind no allocation, and the other blocks have predecessors
        cases ht with
        | start => exact absurd (hahead [] .start) not_mem_nil
        | step walked edge =>
          rw [hnil] at edge
          cases edge
      · rename_i p hpred
        refine (avoids_heldAtEnd fun hnone => ?_).seq fun _ _ _ _ => .of_ok rfl
        have hp : p ∈ f.predecessors b := hpred ▸ mem_singleton_self p
        refine ih hnear h (hahead.pred hp h.stands h.flow.exact hnone) ?_
        cases ht with
        | start => exact absurd (hahead [] .start) not_mem_nil
        | @step c _ t walked edge =>
          rw [hpred, mem_singleton] at edge
          subst edge
          rw [length_cons] at hfuel
          exact ⟨t, walked, by omega⟩
      · rename_i hnil hsingle
        refine avoids_openPhi.seq fun q r2 f2 hopen => ?_
        obtain ⟨ty, rfl, rfl, rfl⟩ := openPhi_ok hopen
        obtain ⟨h2, he2, hlearns2⟩ := h.open_phi ty (r.phis ++ [⟨f.phis.size⟩]) hin hnil hsingle
        refine (avoids_mapM (resolves_heldAtEnd (resolves_heldAtStart fuel)) ?_ h2).seq
          fun _ _ _ _ => .of_ok rfl
        intro p hp r3 f3 h3 he3 hlearns3
        have he := he2.trans he3
        have hlearns := hlearns2.trans hlearns3
        refine avoids_heldAtEnd fun hnone => ih (hnear.enlarges he) h3 ?_ ?_
        · refine (hahead.enlarges h.stands h.flow.exact he).pred ?_ h3.stands h3.flow.exact hnone
          rwa [he.extended.preds]
        · obtain ⟨t', ht', hlen⟩ := hnear.trail p (hnear.live b p hp)
          refine ⟨t', ht'.congr he.extended.preds, ?_⟩
          have hrecorded := hlearns3.incoming b _ (Assoc.get?_insert_self ..)
          have hlt := hlearns.unknown_lt (hnear.bounded b hnil) hin (by rw [hrecorded]; exact nofun)
          have hmul := Nat.mul_le_mul_right (n + 1) hlt
          rw [Nat.succ_mul] at hmul
          omega

/-! ## Reads -/

/-- A read of a field of the instance, in a block that is not removed. -/
structure Reader (site : AllocationSite) (f : Function) (read : InsnId) : Prop where
  reads : f.Reads site.value (.insn read)
  live : (f.block (f.insn read).block).removed = false

lemma Reader.enlarges (h : Reader site f read) (hf : f.Exact) (he : Enlarges f g) :
    Reader site g read := by
  have hinsn := he.extended.insn read (f.lt_insns_of_live (hf.live_of_reads_insn h.reads))
  exact ⟨by rw [Reads, hinsn]; exact h.reads, by rw [hinsn, he.retained.removed]; exact h.live⟩

lemma avoids_heldAtRead (hnear : Near n f) (h : Stage site field pending r f)
    (hread : Reader site f read) : Avoids ((heldAtRead site field read).run r) f := by
  have hf := h.flow.exact
  have hnear := near_of_connected hnear.live fun b hb => (hnear.trail b hb).imp fun _ => And.left
  refine Avoids.seq (.of_ok (g := f) rfl) fun f' r1 g hget => ?_
  cases hget
  cases hn : f.positionInBlock? read with
  | none => exact Avoids.lift (avoids_obstruct nofun)
  | some n =>
    obtain ⟨after, hlist⟩ := hf.insns_eq_front (hf.live_of_reads_insn hread.reads)
    obtain rfl : (f.front read).length = n :=
      Option.some.inj ((hf.positionInBlock?_eq hlist).symm.trans hn)
    refine avoids_heldBehind fun hnone => avoids_heldAtStart _ hnear h (fun t ht => ?_) ?_
    · rw [hlist, take_left] at hnone
      have hhome := hf.definingBlock?_of_dest h.stands.dest
      rcases h.flow.availAt_operand hread.reads with ⟨j, hj, hdest⟩ | hstart
      · obtain rfl : j = site.insn := Site.insn.inj (hf.defines_unique (v := site.value) hdest
          h.stands.dest)
        exact absurd hnone (written?_of_mem h.stands hj)
      · rcases hstart t ht with ⟨c, hc, hdef⟩ | ⟨q, hq, -⟩
        · rw [hhome] at hdef
          exact Option.some.inj hdef ▸ hc
        · rw [(hf.definition_iff _ (.insn site.insn)).2 h.stands.dest] at hq
          cases hq
    · obtain ⟨t, ht, hlen⟩ := hnear.trail _ hread.live
      refine ⟨t, ht, ?_⟩
      have hcard : r.unknown f.blocks.size ≤ f.blocks.size :=
        (Finset.card_filter_le _ _).trans (Finset.card_range _).le
      have hmul := Nat.mul_le_mul_right (f.blocks.size + 1) hcard
      rw [Nat.succ_mul]
      omega

lemma avoids_reads {reads : List InsnId} (hnear : Near n f) (h : Stage site field pending r f)
    (hreads : ∀ read ∈ reads, Reader site f read) :
    Avoids ((reads.mapM fun read => do return (read, ← heldAtRead site field read)).run r) f := by
  induction reads generalizing r f with
  | nil => exact .of_ok (g := f) rfl
  | cons read rest ih =>
    rw [mapM_cons]
    obtain ⟨hread, hrest⟩ := forall_mem_cons.1 hreads
    refine ((avoids_heldAtRead hnear h hread).seq fun _ _ _ _ => .of_ok rfl).seq
      fun p r1 f1 hfirst => ?_
    obtain ⟨v, r2, f2, hheld, ⟨⟩⟩ := ok_of_bind hfirst
    obtain ⟨h1, he, -⟩ := resolves_heldAtRead read pending r f v r1 f1 h hheld
    exact (ih (hnear.enlarges he) h1 fun read' hread' =>
      (hrest read' hread').enlarges h.flow.exact he).seq fun _ _ _ _ => .of_ok rfl

lemma avoids_resolveFields {pairs : List (FieldRef × List InsnId)} (hnear : Near n f)
    (hf : f.Flow fun _ => False) (hs : site.StandsIn f)
    (hreads : ∀ q ∈ pairs, ∀ read ∈ q.2, Reader site f read) :
    Avoids (pairs.mapM fun (field, reads) => resolveField site field reads) f := by
  induction pairs generalizing f with
  | nil => exact .of_ok (g := f) rfl
  | cons q rest ih =>
    rw [mapM_cons]
    obtain ⟨hq, hrest⟩ := forall_mem_cons.1 hreads
    refine ((avoids_reads hnear (stage_empty hf hs) hq).bind fun _ _ _ => .of_ok rfl).bind
      fun out f1 hfirst => ?_
    obtain ⟨hf1, he, -⟩ := resolveField_ok hf hs hfirst
    exact (ih (hnear.enlarges he) hf1 (hs.enlarges hf.exact he) fun q' hq' read hread =>
      (hrest q' hq' read hread).enlarges hf.exact he).bind fun _ _ _ => .of_ok rfl

lemma avoids_addUse (uses : Uses) (user : Site) : Avoids (addUse site root uses user) f := by
  cases user with
  | phi p => exact avoids_obstruct nofun
  | insn i =>
    refine Avoids.bind (.of_ok (g := f) rfl) fun f' g hget => ?_
    cases hget
    split
    · exact .of_ok (g := f) rfl
    · split
      · exact .of_ok (g := f) rfl
      · exact avoids_obstruct nofun
    · split
      · exact .of_ok (g := f) rfl
      · exact avoids_obstruct nofun
    · exact avoids_obstruct nofun

lemma avoids_checkFilled (p : PhiId) : Avoids (checkFilled site p) f := by
  refine Avoids.bind (.of_ok (g := f) rfl) fun f' g hget => ?_
  cases hget
  split
  · exact avoids_obstruct nofun
  · exact .of_ok (g := f) rfl

lemma avoids_removeInsn (i : InsnId) : Avoids (Ssa.removeInsn i) f := by
  refine Avoids.bind (.of_ok (g := f) rfl) fun f' g hget => ?_
  cases hget
  dsimp only
  split
  · exact .of_ok (g := f) rfl
  · split
    · split
      · exact (avoids_refuse _).bind fun _ _ hrun => by cases hrun
      · exact .of_ok rfl
    · exact .of_ok rfl

lemma avoids_replaceRead (replaced : Assoc ValueId ValueId) (p : InsnId × ValueId) :
    Avoids (replaceRead site replaced p) f := by
  refine Avoids.bind (.of_ok (g := f) rfl) fun f' g hget => ?_
  cases hget
  split
  · exact .of_ok (g := f) rfl
  · split
    · refine (avoids_obstruct ?_).bind fun _ _ hrun => by cases hrun
      exact nofun
    · exact Avoids.bind (.of_ok rfl) fun _ _ _ =>
        (avoids_removeInsn _).bind fun _ _ _ => .of_ok rfl

/-- Where every block is reached, replacing an instance does not fail because a search found no write. -/
lemma avoids_reconstruct (hf : f.WellFormed) (hreach : f.Connected) (hs : site.StandsIn f) :
    Avoids (reconstruct site root) f := by
  have hnear := near_of_connected (fun b p hp => hf.live_pred hp) hreach
  refine Avoids.bind (.of_ok (g := f) rfl) fun f' g hget => ?_
  cases hget
  refine (Avoids.foldlM (fun uses user f => avoids_addUse uses user) {} f).bind fun uses g husers => ?_
  obtain ⟨hsorted, rfl⟩ := sorted_foldlM sorted_empty (fun s => (hf.exact.users_iff _ s).1) husers
  refine (avoids_resolveFields hnear hf.flow hs fun q hq read hread => ?_).bind
    fun perField resolved hresolve => ?_
  · have hr : f.Reads site.value (.insn read) := by
      rw [Reads, hsorted.reads q hq read hread]
      exact mem_singleton_self _
    exact ⟨hr, hf.orderly.live_block_of_mem
      ((hf.exact.insns_iff _ _).2 ⟨hf.exact.live_of_reads_insn hr, rfl⟩)⟩
  refine (Avoids.forM (fun p f => avoids_checkFilled p) resolved).bind fun u g hcheck => ?_
  obtain rfl := checkFilled_ok hcheck
  refine ((Avoids.foldlM (fun m p f => avoids_replaceRead m p) _ _).bind fun _ _ _ => .of_ok rfl).bind
    fun u unread hreplace => ?_
  obtain ⟨replaced, f', hreplace, ⟨⟩⟩ := Edit.ok_of_bind hreplace
  refine (Avoids.forM (fun i f => avoids_removeInsn i) _).bind fun u unwritten hwrites => ?_
  refine (Avoids.forM (fun i f => avoids_removeInsn i) _).bind fun u stripped hconstructors => ?_
  obtain ⟨hstripped, -⟩ := wellFormed_stripped hf hs hsorted hresolve hreplace hwrites hconstructors
  obtain ⟨n, k, cleaned, hclean, -⟩ := hstripped.cleanUpPhis_run
  refine ((Avoids.of_ok hclean).bind fun _ _ _ => .of_ok rfl).bind fun u g _ => ?_
  refine Avoids.bind (.of_ok (g := g) rfl) fun f' g' hget => ?_
  cases hget
  split
  · refine (avoids_obstruct ?_).bind fun _ _ hrun => by cases hrun
    intro field b h
    cases h
  · exact (avoids_removeInsn _).bind fun _ _ _ => .of_ok rfl

/-- In a verified function whose blocks are all reached the search for the values of the fields ends. If
an allocation is replaced, the result is verified, the allocation is removed, nothing reads the instance
any more, and every phi has an operand per predecessor. -/
theorem verify_reconstruct (root : TypeRef) (hf : f.Orderly) (hverified : Ssa.verify f = .ok ())
    (hreach : ∀ b ∈ f.blockIds, f.reached b = true) (hs : site ∈ AllocationSite.collect f) :
    Avoids (reconstruct site root) f ∧
      ∀ answer g, (reconstruct site root).run f = .ok answer g →
        Ssa.verify g = .ok () ∧ (g.insn site.insn).removed = true ∧
          (∀ s, ¬g.Reads site.value s) ∧ ∀ p, (g.phi p).removed = false →
            (g.phi p).operands.length = (g.predecessors (g.phi p).block).length := by
  have hf := hf.wellFormed_of_verify hverified
  obtain ⟨hs, -⟩ := standsIn_of_collect hf.exact hs
  have hconnected : f.Connected := fun b hb => hf.reached_iff.1 (hreach b ((f.mem_blockIds b).2 hb))
  refine ⟨avoids_reconstruct hf hconnected hs, fun answer g hrun => ?_⟩
  obtain ⟨hg, -, hgone, hunread⟩ := wellFormed_reconstruct hf hs hrun
  exact ⟨hg.verify, hgone, hunread, fun p hp => hg.flow.arity p hp not_false⟩

def countingCell : FieldRef := ⟨⟨"LCell;"⟩, "n", ⟨"I"⟩⟩

/-- A loop that reads and changes a field of an instance, which is read once more behind the loop. -/
def counting : Function :=
  Ssa.Mutation.replay (Function.empty default true)
    [.addBlock, .addBlock, .addBlock, .appendValue ⟨0⟩ (.argument 0) .int (.lifted 0),
      .appendValue ⟨0⟩ (.newInstance countingCell.holder) .object (.lifted 1),
      .appendInsn ⟨0⟩ (.instancePut countingCell ⟨1⟩ ⟨0⟩) none (.lifted 2),
      .appendInsn ⟨0⟩ (.goto ⟨1⟩) none (.lifted 3), .addPredecessor ⟨1⟩ ⟨0⟩,
      .appendValue ⟨1⟩ (.instanceGet countingCell ⟨1⟩) .int (.lifted 4),
      .appendValue ⟨1⟩ (.neg .int ⟨2⟩) .int (.lifted 5),
      .appendInsn ⟨1⟩ (.instancePut countingCell ⟨1⟩ ⟨3⟩) none (.lifted 6),
      .appendInsn ⟨1⟩ (.branch .ne ⟨2⟩ none ⟨1⟩ ⟨2⟩) none (.lifted 7), .addPredecessor ⟨1⟩ ⟨1⟩,
      .addPredecessor ⟨2⟩ ⟨1⟩, .appendValue ⟨2⟩ (.instanceGet countingCell ⟨1⟩) .int (.lifted 8),
      .appendInsn ⟨2⟩ (.ret (some ⟨4⟩)) none (.lifted 9)]

theorem verify_reconstruct_counting : ∃ g,
    (reconstruct ⟨⟨1⟩, ⟨1⟩, countingCell.holder, 1⟩ .root).run counting = .ok ⟨2, 2, 1⟩ g ∧
      Ssa.verify g = .ok () ∧ (g.insn ⟨1⟩).removed = true ∧ (∀ s, ¬g.Reads ⟨1⟩ s) ∧
        ∀ p, (g.phi p).removed = false →
          (g.phi p).operands.length = (g.predecessors (g.phi p).block).length := by
  have horderly : counting.Orderly := Ssa.Mutation.orderly_replay (.empty _ _) (by decide)
  have hanswer : (reconstruct ⟨⟨1⟩, ⟨1⟩, countingCell.holder, 1⟩ .root).answer? counting =
      some ⟨2, 2, 1⟩ := by decide +kernel
  obtain ⟨g, hrun⟩ := Edit.ok_of_answer? hanswer
  exact ⟨g, hrun, (@verify_reconstruct ⟨⟨1⟩, ⟨1⟩, countingCell.holder, 1⟩ _ .root horderly
    (by decide +kernel) (by decide +kernel) (by decide +kernel)).2 _ g hrun⟩

end Dissolve.Inline
