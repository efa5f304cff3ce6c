import Dissolve.Proofs.Ssa.Cleanup
import Dissolve.Ssa.Compact

/-!
# Proofs.Ssa.Rebuild — computing definitions and users afresh

`rebuildDefUse` forgets the definitions and users of all values and records them again from the live
instructions and phis. If every value has one definition, the result is exact
(`Listed.exact_rebuildDefUse`), whatever was recorded before.
-/

namespace Dissolve.Ssa.Function

open List

variable {f : Function} {v : ValueId} {s : Site}

/-- The blocks list the live instructions and phis, and every value is defined by one of them. -/
structure Listed (f : Function) : Prop where
  insn_gone : ∀ i, (f.insn i).removed = true → (f.insn i).op = .nop ∧ (f.insn i).dest = none
  phi_gone : ∀ p, (f.phi p).removed = true → (f.phi p).operands = []
  insns_iff : ∀ b i, i ∈ (f.block b).insns ↔ (f.insn i).removed = false ∧ (f.insn i).block = b
  insns_nodup : ∀ b, (f.block b).insns.Nodup
  phis_iff : ∀ b p, p ∈ (f.block b).phis ↔ (f.phi p).removed = false ∧ (f.phi p).block = b
  phis_nodup : ∀ b, (f.block b).phis.Nodup
  lists_live : ∀ b, (f.block b).removed = true → (f.block b).insns = [] ∧ (f.block b).phis = []
  defines_unique : ∀ v s t, f.Defines v s → f.Defines v t → s = t
  defines_lt : ∀ v s, f.Defines v s → v.index < f.values.size
  reads_lt : ∀ v s, f.Reads v s → v.index < f.values.size

def sites (f : Function) : List Site :=
  f.blockIds.flatMap fun b => (f.block b).insns.map .insn ++ (f.block b).phis.map .phi

def recordSite (f : Function) : Site → Function
  | .insn i => f.recordInsn i
  | .phi p => f.recordPhi p

section Record

variable (f : Function) (s : Site)

@[simp] lemma blocks_recordSite : (f.recordSite s).blocks = f.blocks := by
  cases s <;> simp [recordSite, recordInsn, recordPhi]

@[simp] lemma insns_recordSite : (f.recordSite s).insns = f.insns := by
  cases s <;> simp [recordSite, recordInsn, recordPhi]

@[simp] lemma phis_recordSite : (f.recordSite s).phis = f.phis := by
  cases s <;> simp [recordSite, recordInsn, recordPhi]

@[simp] lemma size_values_recordSite : (f.recordSite s).values.size = f.values.size := by
  cases s <;> simp [recordSite, recordInsn, recordPhi]

lemma clearDefUse_modifyValue (v : ValueId) {k : Value → Value}
    (hk : ∀ x, { k x with definition := none, users := [] } =
      { x with definition := none, users := [] }) :
    (f.modifyValue v k).clearDefUse = f.clearDefUse := by
  rw [clearDefUse, clearDefUse, modifyValue]
  congr 1
  refine Array.ext (by simp) fun i _ _ => ?_
  simp only [Array.getElem_map, Array.getElem_modify]
  split
  · exact hk _
  · rfl

lemma clearDefUse_recordSite : (f.recordSite s).clearDefUse = f.clearDefUse := by
  have husers : ∀ values (f : Function), (f.addUsers s values).clearDefUse = f.clearDefUse :=
    foldl_keeps (k := clearDefUse) fun f v => f.clearDefUse_modifyValue v fun x => by
      rw [Value.addUser]
      split <;> rfl
  have hdef : ∀ (f : Function) v site, (f.setDefinition v site).clearDefUse = f.clearDefUse :=
    fun f v _ => f.clearDefUse_modifyValue v fun _ => rfl
  cases s with
  | insn i =>
    rw [recordSite, recordInsn]
    cases (f.insn i).dest with
    | none => exact husers _ f
    | some v => exact (hdef _ v _).trans (husers _ f)
  | phi p => exact (hdef _ _ _).trans (husers _ f)

lemma mem_users_recordSite (t : Site) (v : ValueId) :
    t ∈ ((f.recordSite s).value v).users ↔
      t ∈ (f.value v).users ∨ (t = s ∧ f.Reads v s ∧ f.HasValue v) := by
  cases s with
  | insn i => simp [recordSite, recordInsn, mem_users_addUsers, Reads]
  | phi p => simp [recordSite, recordPhi, mem_users_addUsers, Reads]

lemma nodup_users_recordSite (h : (f.value v).users.Nodup) :
    ((f.recordSite s).value v).users.Nodup := by
  cases s with
  | insn i =>
    rw [recordSite, recordInsn, users_setDest]
    exact nodup_users_addUsers _ _ _ _ h
  | phi p =>
    rw [recordSite, recordPhi, users_setDefinition]
    exact nodup_users_addUsers _ _ _ _ h

end Record

def recordSites (f : Function) (places : List Site) : Function :=
  places.foldl recordSite f

lemma recordBlock_eq (f : Function) (b : BlockId) :
    f.recordBlock b = f.recordSites ((f.block b).insns.map .insn ++ (f.block b).phis.map .phi) := by
  simp only [recordBlock, recordSites, foldl_append, foldl_map]
  rfl

section RecordSites

variable (f : Function) (places : List Site)

@[simp] lemma blocks_recordSites : (f.recordSites places).blocks = f.blocks :=
  foldl_keeps blocks_recordSite places f

@[simp] lemma insns_recordSites : (f.recordSites places).insns = f.insns :=
  foldl_keeps insns_recordSite places f

@[simp] lemma phis_recordSites : (f.recordSites places).phis = f.phis :=
  foldl_keeps phis_recordSite places f

@[simp] lemma size_values_recordSites : (f.recordSites places).values.size = f.values.size :=
  foldl_keeps (k := (·.values.size)) size_values_recordSite places f

lemma reads_recordSite (s t : Site) (v : ValueId) : (f.recordSite s).Reads v t ↔ f.Reads v t := by
  cases t <;> simp [Reads, insn, phi]

lemma defines_recordSite (s t : Site) (v : ValueId) :
    (f.recordSite s).Defines v t ↔ f.Defines v t := by
  cases t <;> simp [Defines, insn, phi]

lemma mem_users_recordSites (t : Site) (v : ValueId) :
    t ∈ ((f.recordSites places).value v).users ↔
      t ∈ (f.value v).users ∨ (t ∈ places ∧ f.Reads v t ∧ f.HasValue v) := by
  induction places generalizing f with
  | nil => simp [recordSites]
  | cons s rest ih =>
    refine (ih (f.recordSite s)).trans ?_
    rw [mem_users_recordSite, reads_recordSite, HasValue, HasValue, size_values_recordSite, mem_cons]
    constructor
    · rintro ((h | ⟨rfl, h⟩) | ⟨hmem, h⟩)
      · exact .inl h
      · exact .inr ⟨.inl rfl, h⟩
      · exact .inr ⟨.inr hmem, h⟩
    · rintro (h | ⟨rfl | hmem, h⟩)
      · exact .inl (.inl h)
      · exact .inl (.inr ⟨rfl, h⟩)
      · exact .inr ⟨hmem, h⟩

lemma nodup_users_recordSites (h : (f.value v).users.Nodup) :
    ((f.recordSites places).value v).users.Nodup := by
  induction places generalizing f with
  | nil => exact h
  | cons s rest ih => exact ih (f.recordSite s) (f.nodup_users_recordSite s h)

end RecordSites

lemma definition_recordSite (f : Function)
    (hlive : ∀ p, s = .phi p → f.LivePhi p) (hlt : f.HasValue v) :
    (f.Defines v s → ((f.recordSite s).value v).definition = some s) ∧
      (¬f.Defines v s → ((f.recordSite s).value v).definition = (f.value v).definition) := by
  cases s with
  | insn i =>
    simp only [recordSite, recordInsn, definition_setDest, size_values_addUsers,
      definition_addUsers, Defines]
    exact ⟨fun h => by rw [if_pos ⟨h, hlt⟩], fun h => by rw [if_neg fun hc => h hc.1]⟩
  | phi p =>
    simp only [recordSite, recordPhi, value_setDefinition, size_values_addUsers, Defines,
      hlive p rfl, true_and]
    constructor
    · rintro rfl
      rw [if_pos ⟨rfl, hlt⟩]
    · intro hne
      rw [if_neg fun hc => hne hc.1, definition_addUsers]

lemma definition_recordSites (f : Function) {places : List Site}
    (hlive : ∀ p, Site.phi p ∈ places → (f.phi p).removed = false) (hlt : f.HasValue v)
    (hunique : ∀ s t, f.Defines v s → f.Defines v t → s = t) :
    (∀ s ∈ places, f.Defines v s → ((f.recordSites places).value v).definition = some s) ∧
      ((∀ s ∈ places, ¬f.Defines v s) →
        ((f.recordSites places).value v).definition = (f.value v).definition) := by
  induction places generalizing f with
  | nil => simp [recordSites]
  | cons s rest ih =>
    obtain ⟨hsome, hnone⟩ := f.definition_recordSite (s := s)
      (fun p hp => hlive p (hp ▸ mem_cons_self)) hlt
    obtain ⟨ihsome, ihnone⟩ := ih (f.recordSite s)
      (fun p hp => by simpa [phi] using hlive p (mem_cons_of_mem _ hp))
      (by simpa using hlt)
      (fun a b ha hb => hunique a b ((f.defines_recordSite s a v).1 ha)
        ((f.defines_recordSite s b v).1 hb))
    constructor
    · intro t ht hdef
      by_cases hrest : t ∈ rest
      · exact ihsome t hrest ((f.defines_recordSite s t v).2 hdef)
      · obtain rfl := (mem_cons.1 ht).resolve_right hrest
        refine (ihnone fun a ha hdef' => ?_).trans (hsome hdef)
        rw [f.defines_recordSite t a v] at hdef'
        exact hrest (hunique a t hdef' hdef ▸ ha)
    · intro hall
      refine (ihnone fun a ha hdef' => ?_).trans (hnone (hall s mem_cons_self))
      rw [f.defines_recordSite s a v] at hdef'
      exact hall a (mem_cons_of_mem _ ha) hdef'

/-! ## Rebuilding -/

section Rebuild

variable (f : Function)

lemma rebuildDefUse_eq : f.rebuildDefUse = f.clearDefUse.recordSites f.sites := by
  have hfold : ∀ (blocks : List BlockId) (g : Function), g.blocks = f.blocks →
      blocks.foldl recordBlock g = g.recordSites
        (blocks.flatMap fun b => (f.block b).insns.map .insn ++ (f.block b).phis.map .phi) := by
    intro blocks
    induction blocks with
    | nil => exact fun g _ => rfl
    | cons b rest ih =>
      intro g hg
      have hblock : g.block b = f.block b := by simp [block, hg]
      rw [foldl_cons, flatMap_cons, recordBlock_eq, hblock, ih _ (by simp [hg])]
      simp only [recordSites, foldl_append]
  exact hfold _ _ rfl

@[simp] lemma blocks_rebuildDefUse : f.rebuildDefUse.blocks = f.blocks := by
  simp [rebuildDefUse_eq, clearDefUse]

@[simp] lemma insns_rebuildDefUse : f.rebuildDefUse.insns = f.insns := by
  simp [rebuildDefUse_eq, clearDefUse]

@[simp] lemma phis_rebuildDefUse : f.rebuildDefUse.phis = f.phis := by
  simp [rebuildDefUse_eq, clearDefUse]

@[simp] lemma block_rebuildDefUse (b : BlockId) : f.rebuildDefUse.block b = f.block b := by
  simp [block]

@[simp] lemma insn_rebuildDefUse (i : InsnId) : f.rebuildDefUse.insn i = f.insn i := by
  simp [insn]

@[simp] lemma phi_rebuildDefUse (p : PhiId) : f.rebuildDefUse.phi p = f.phi p := by
  simp [phi]

lemma value_clearDefUse (v : ValueId) :
    f.clearDefUse.value v = { f.value v with definition := none, users := [] } := by
  by_cases hlt : f.HasValue v
  · simp [value, clearDefUse, hlt]
  · have hle := Nat.le_of_not_lt hlt
    rw [f.value_of_size_le hle, value_of_size_le _ (by simpa [clearDefUse] using hle)]
    rfl

lemma clearDefUse_rebuildDefUse : f.rebuildDefUse.clearDefUse = f.clearDefUse := by
  rw [rebuildDefUse_eq]
  refine (foldl_keeps (k := clearDefUse) clearDefUse_recordSite _ _).trans ?_
  simp [clearDefUse]

lemma ty_rebuildDefUse (v : ValueId) : (f.rebuildDefUse.value v).ty = (f.value v).ty := by
  have hbare := congrArg (fun f => (f.value v).ty) f.clearDefUse_rebuildDefUse
  simpa only [value_clearDefUse] using hbare

lemma debugName_rebuildDefUse (v : ValueId) :
    (f.rebuildDefUse.value v).debugName = (f.value v).debugName := by
  have hbare := congrArg (fun f => (f.value v).debugName) f.clearDefUse_rebuildDefUse
  simpa only [value_clearDefUse] using hbare

lemma header_rebuildDefUse : f.rebuildDefUse.method = f.method ∧
    f.rebuildDefUse.isStatic = f.isStatic ∧ f.rebuildDefUse.lens = f.lens :=
  have h := f.clearDefUse_rebuildDefUse
  ⟨show f.rebuildDefUse.clearDefUse.method = _ by rw [h]; rfl,
    show f.rebuildDefUse.clearDefUse.isStatic = _ by rw [h]; rfl,
    show f.rebuildDefUse.clearDefUse.lens = _ by rw [h]; rfl⟩

lemma rebuildDefUse_rebuildDefUse : f.rebuildDefUse.rebuildDefUse = f.rebuildDefUse := by
  have hsites : f.rebuildDefUse.sites = f.sites := by simp [sites, blockIds]
  rw [rebuildDefUse_eq, clearDefUse_rebuildDefUse, hsites, ← rebuildDefUse_eq]

section

variable (v : ValueId) (s : Site)

lemma defines_clearDefUse : f.clearDefUse.Defines v s ↔ f.Defines v s := by
  cases s <;> rfl

lemma reads_clearDefUse : f.clearDefUse.Reads v s ↔ f.Reads v s := by
  cases s <;> rfl

@[simp] lemma defines_rebuildDefUse : f.rebuildDefUse.Defines v s ↔ f.Defines v s := by
  cases s <;> simp [Defines]

@[simp] lemma reads_rebuildDefUse : f.rebuildDefUse.Reads v s ↔ f.Reads v s := by
  cases s <;> simp [Reads]

end

end Rebuild

namespace Listed

lemma mem_sites (h : f.Listed) (s : Site) :
    s ∈ f.sites ↔
      (∃ i, s = .insn i ∧ f.LiveInsn i) ∨
        ∃ p, s = .phi p ∧ f.LivePhi p := by
  have hlive : ∀ b, (f.block b).insns ≠ [] ∨ (f.block b).phis ≠ [] → b ∈ f.blockIds := by
    intro b hb
    rw [mem_blockIds]
    by_contra hc
    obtain ⟨hi, hp⟩ := h.lists_live b (by simpa using hc)
    rcases hb with hb | hb
    · exact hb hi
    · exact hb hp
  simp only [sites, mem_flatMap, mem_append, mem_map]
  constructor
  · rintro ⟨b, -, ⟨i, hi, rfl⟩ | ⟨p, hp, rfl⟩⟩
    · exact .inl ⟨i, rfl, ((h.insns_iff b i).1 hi).1⟩
    · exact .inr ⟨p, rfl, ((h.phis_iff b p).1 hp).1⟩
  · rintro (⟨i, rfl, hi⟩ | ⟨p, rfl, hp⟩)
    · have hmem := (h.insns_iff _ i).2 ⟨hi, rfl⟩
      exact ⟨_, hlive _ (.inl (ne_nil_of_mem hmem)), .inl ⟨i, hmem, rfl⟩⟩
    · have hmem := (h.phis_iff _ p).2 ⟨hp, rfl⟩
      exact ⟨_, hlive _ (.inr (ne_nil_of_mem hmem)), .inr ⟨p, hmem, rfl⟩⟩

lemma mem_sites_of_defines (h : f.Listed) (hd : f.Defines v s) : s ∈ f.sites := by
  rw [h.mem_sites]
  cases s with
  | insn i =>
    refine .inl ⟨i, rfl, ?_⟩
    by_contra hc
    have := (h.insn_gone i (by simpa using hc)).2
    simp [Defines, this] at hd
  | phi p => exact .inr ⟨p, rfl, hd.1⟩

lemma mem_sites_of_reads (h : f.Listed) (hr : f.Reads v s) : s ∈ f.sites := by
  rw [h.mem_sites]
  cases s with
  | insn i =>
    refine .inl ⟨i, rfl, ?_⟩
    by_contra hc
    have := (h.insn_gone i (by simpa using hc)).1
    simp [Reads, this, Op.operands] at hr
  | phi p =>
    refine .inr ⟨p, rfl, ?_⟩
    by_contra hc
    have := h.phi_gone p (by simpa using hc)
    simp [Reads, this] at hr

theorem exact_rebuildDefUse (h : f.Listed) : f.rebuildDefUse.Exact := by
  refine ⟨?_, ?_, ?_, ?_, ?_, ?_, ?_, ?_, ?_⟩
  · simpa using h.insn_gone
  · simpa using h.phi_gone
  · simpa using h.insns_iff
  · simpa using h.insns_nodup
  · simpa using h.phis_iff
  · simpa using h.phis_nodup
  · intro v s
    rw [defines_rebuildDefUse, rebuildDefUse_eq]
    have hphis : ∀ p, Site.phi p ∈ f.sites → f.clearDefUse.LivePhi p := by
      intro p hp
      rcases (h.mem_sites _).1 hp with ⟨i, hi, -⟩ | ⟨q, hq, hlive⟩
      · simp at hi
      · exact Site.phi.inj hq ▸ hlive
    have hunique : ∀ a b, f.clearDefUse.Defines v a → f.clearDefUse.Defines v b → a = b :=
      fun a b ha hb => h.defines_unique v a b ((f.defines_clearDefUse v a).1 ha)
        ((f.defines_clearDefUse v b).1 hb)
    by_cases hlt : f.clearDefUse.HasValue v
    · obtain ⟨hsome, hnone⟩ := f.clearDefUse.definition_recordSites hphis hlt hunique
      constructor
      · intro hs
        by_contra hnot
        by_cases hex : ∃ t ∈ f.sites, f.Defines v t
        · obtain ⟨t, ht, hdef⟩ := hex
          rw [hsome t ht ((f.defines_clearDefUse v t).2 hdef), Option.some.injEq] at hs
          exact hnot (hs ▸ hdef)
        · rw [hnone fun t ht hdef => hex ⟨t, ht, (f.defines_clearDefUse v t).1 hdef⟩,
            value_clearDefUse] at hs
          simp at hs
      · intro hdef
        exact hsome s (h.mem_sites_of_defines hdef) ((f.defines_clearDefUse v s).2 hdef)
    · have hle := Nat.le_of_not_lt hlt
      rw [value_of_size_le _ (by simpa using hle), definition_default]
      refine ⟨fun hc => by simp at hc, fun hdef => ?_⟩
      exact absurd (h.defines_lt v s hdef) (by simpa [clearDefUse] using hlt)
  · intro v s
    rw [reads_rebuildDefUse, rebuildDefUse_eq, mem_users_recordSites, value_clearDefUse,
      reads_clearDefUse]
    constructor
    · rintro (hc | ⟨-, hr, -⟩)
      · simp at hc
      · exact hr
    · intro hr
      exact .inr ⟨h.mem_sites_of_reads hr, hr, by simpa [clearDefUse] using h.reads_lt v s hr⟩
  · intro v
    rw [rebuildDefUse_eq]
    refine nodup_users_recordSites _ _ ?_
    rw [value_clearDefUse]
    exact nodup_nil

end Listed

lemma Orderly.listed (h : f.Orderly) : f.Listed := by
  have hf := h.exact
  refine ⟨hf.insn_gone, hf.phi_gone, hf.insns_iff, hf.insns_nodup, hf.phis_iff, hf.phis_nodup,
    ?_, fun v s t => hf.defines_unique, ?_, fun v s => hf.lt_of_reads⟩
  · intro b hb
    rw [h.gone b hb]
    exact ⟨rfl, rfl⟩
  · intro v s hd
    exact f.lt_values_of_definition ((hf.definition_iff v s).2 hd)

theorem Orderly.rebuildDefUse (h : f.Orderly) : f.rebuildDefUse.Orderly :=
  ⟨h.listed.exact_rebuildDefUse, by simpa using h.gone⟩

lemma WellFormed.definition_rebuildDefUse (h : f.WellFormed) (v : ValueId) :
    (f.rebuildDefUse.value v).definition = (f.value v).definition := by
  refine Option.ext fun s => ?_
  rw [h.orderly.listed.exact_rebuildDefUse.definition_iff, defines_rebuildDefUse,
    h.exact.definition_iff]

/-- Rebuilding definitions and users changes nothing that the rules of SSA form speak about. -/
theorem WellFormed.rebuildDefUse (h : f.WellFormed) : f.rebuildDefUse.WellFormed := by
  have hdef := h.definition_rebuildDefUse
  have hcarries : f.Carries f.rebuildDefUse id := by
    refine Carries.of_extends (fun b => by simp [predecessors]) ?_ (fun i v => by simp)
    intro v s hs
    refine ⟨by rw [hdef, hs], ?_⟩
    cases s <;> simp [siteBlock]
  refine h.of_flow ⟨h.orderly.listed.exact_rebuildDefUse, ?_, fun _ hc => hc.elim, ?_, ?_, ?_, ?_⟩
    (fun b => by simp) (fun b hb => by simpa using hb) (fun i => by simp) (fun i => by simp)
  · exact (hcarries.preds _).trans h.flow.entry_preds
  · simpa [predecessors] using h.flow.arity
  · intro q j v p hv hp
    rw [phi_rebuildDefUse] at hv hp
    rw [predecessors, block_rebuildDefUse] at hp
    exact hcarries.avail_end v p (h.flow.phi_avail q j v p hv hp)
  · intro b before i after hlist v hv
    rw [block_rebuildDefUse] at hlist
    rw [insn_rebuildDefUse] at hv
    exact hcarries.avail_before (h.flow.insn_avail b before i after hlist v hv)
  · intro v s hr
    rw [hdef]
    exact h.flow.defined v s ((f.reads_rebuildDefUse v s).1 hr)

end Dissolve.Ssa.Function
