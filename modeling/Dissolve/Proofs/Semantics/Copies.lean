import Dissolve.Proofs.Semantics.Execution

/-!
# Proofs.Semantics.Copies — values that hold the same

A value `x` that is given the content of `u` whenever it is defined keeps that content as long as it is
available: between the definition of `u` and a use of `x` a run has to come by the definition of `x`
(`Precedes`). `Copied f x u b before env` says so at one place of a run, and the lemmas say that
instructions and edges keep it.
-/

namespace Dissolve.Semantics

open List Option
open Ssa (Function Op)

variable {β : Type} {c b : BlockId} {n : Nat} {t : List BlockId}

/-! ## Edges -/

section Occurrence

variable {α : Type} {a : α} {xs : List α} {r : α → β} [DecidableEq α]

lemma occurrence_of_lt_count (h : n < xs.count a) :
    ∃ slot, occurrence a n xs = some slot ∧ xs[slot]? = some a := by
  induction xs generalizing n with
  | nil => simp at h
  | cons x xs ih =>
    by_cases hx : x = a
    · subst hx
      rw [count_cons_self] at h
      cases n with
      | zero => exact ⟨0, by simp [occurrence], rfl⟩
      | succ n =>
        obtain ⟨slot, hslot, hget⟩ := ih (n := n) (by omega)
        exact ⟨slot + 1, by simp [occurrence, hslot], by simpa using hget⟩
    · rw [count_cons_of_ne hx] at h
      obtain ⟨slot, hslot, hget⟩ := ih h
      refine ⟨slot + 1, ?_, by simpa using hget⟩
      cases n <;> simp [occurrence, hx, hslot]

lemma occurrence_of_nodup (h : xs.Nodup) (ha : xs[n]? = some a) : occurrence a 0 xs = some n := by
  induction xs generalizing n with
  | nil => simp at ha
  | cons x xs ih =>
    obtain ⟨hx, hxs⟩ := nodup_cons.1 h
    cases n with
    | zero => simpa [occurrence] using ha
    | succ n =>
      have hne : x ≠ a := fun heq => hx (heq ▸ mem_of_getElem? ha)
      simp [occurrence, hne, ih hxs ha]

lemma occurrence_map [DecidableEq β] (hinj : ∀ x ∈ xs, r x = r a → x = a) (n : Nat) :
    occurrence (r a) n (xs.map r) = occurrence a n xs := by
  induction xs generalizing n with
  | nil => cases n <;> rfl
  | cons x xs ih =>
    have ih := ih fun y hy => hinj y (mem_cons_of_mem x hy)
    by_cases hx : x = a
    · subst hx
      cases n <;> simp [occurrence, ih]
    · have hr : r x ≠ r a := fun h => hx (hinj x mem_cons_self h)
      cases n <;> simp [occurrence, hx, hr, ih]

lemma count_map_of_inj [DecidableEq β] (hinj : ∀ x ∈ xs, r x = r a → x = a) :
    (xs.map r).count (r a) = xs.count a := by
  simp only [count, countP_map]
  refine countP_congr fun x hx => ?_
  simp only [Function.comp_apply, beq_iff_eq]
  exact ⟨hinj x hx, congrArg r⟩

lemma count_take_lt (h : xs[n]? = some a) : (xs.take n).count a < xs.count a := by
  obtain ⟨hlt, rfl⟩ := List.getElem?_eq_some_iff.1 h
  calc (xs.take n).count xs[n] < (xs.take n).count xs[n] + (xs.drop n).count xs[n] :=
        Nat.lt_add_of_pos_right (count_pos_iff.2 (mem_of_getElem? (i := 0) (by simp [hlt])))
    _ = xs.count xs[n] := by rw [← count_append, take_append_drop]

end Occurrence

section

variable {D : Type} {f : Function} {slot : Nat} {env : ValueId → D}

lemma follow_cases (h : f.WellFormed) (b : BlockId) (n : Nat) (env : ValueId → D) :
    follow f b n env = .ended .stuck ∧ (f.successors b).length ≤ n ∨
      ∃ c slot, (f.successors b)[n]? = some c ∧
        occurrence b (((f.successors b).take n).count c) (f.predecessors c) = some slot ∧
        (f.predecessors c)[slot]? = some b ∧
        follow f b n env = .running c (f.block c).insns (merged f c slot env) := by
  cases hc : (f.successors b)[n]? with
  | none =>
    refine .inl ⟨by simp [follow, hc], getElem?_eq_none_iff.1 hc⟩
  | some c =>
    have hlt := count_take_lt hc
    rw [← h.edges c b] at hlt
    obtain ⟨slot, hslot, hget⟩ := occurrence_of_lt_count hlt
    exact .inr ⟨c, slot, rfl, hslot, hget, by simp [follow, hc, hslot]⟩

lemma follow_eq (hc : (f.successors b)[n]? = some c)
    (hocc : occurrence b (((f.successors b).take n).count c) (f.predecessors c) = some slot) :
    follow f b n env = .running c (f.block c).insns (merged f c slot env) := by
  simp only [follow, hc, hocc]

lemma follow_map {g : Function} (h : f.WellFormed) (block pred : BlockId → BlockId)
    (hsucc : g.successors (pred b) = (f.successors b).map block)
    (hblock : ∀ c d, f.LiveBlock c → f.LiveBlock d → block c = block d → c = d)
    (hpreds : ∀ c, b ∈ f.predecessors c → g.predecessors (block c) = (f.predecessors c).map pred)
    (hpred : ∀ p, f.LiveBlock p → pred p = pred b → p = b) (n : Nat) (env env' : ValueId → D) :
    follow f b n env = .ended .stuck ∧ follow g (pred b) n env' = .ended .stuck ∨
      ∃ c slot, (f.predecessors c)[slot]? = some b ∧
        follow f b n env = .running c (f.block c).insns (merged f c slot env) ∧
        follow g (pred b) n env' =
          .running (block c) (g.block (block c)).insns (merged g (block c) slot env') := by
  rcases follow_cases h b n env with ⟨hstuck, hlen⟩ | ⟨c, slot, hc, hocc, hslot, hrun⟩
  · exact .inl ⟨hstuck, by simp [follow, hsucc, hlen]⟩
  · have hmem : b ∈ f.predecessors c := mem_of_getElem? hslot
    have hcount : ((g.successors (pred b)).take n).count (block c) =
        ((f.successors b).take n).count c := by
      rw [hsucc, ← map_take]
      refine count_map_of_inj fun d hd => hblock d c ?_ (h.live_of_pred hmem)
      exact h.live_of_pred (h.mem_successors_iff.1 (mem_of_mem_take hd))
    refine .inr ⟨c, slot, hslot, hrun, follow_eq (by simp [hsucc, hc]) ?_⟩
    rw [hcount, hpreds c hmem, occurrence_map fun p hp => hpred p (h.live_pred hp), hocc]

lemma merged_of_ne {v : ValueId} (h : ∀ q ∈ (f.block c).phis, (f.phi q).value ≠ v) :
    merged f c slot env v = env v := by
  rw [merged, find?_eq_none.2 fun q hq => by simpa using h q hq]

lemma merged_of_not_isPhiOf (hf : f.Exact) {v : ValueId} (hv : ¬f.IsPhiOf v c) :
    merged f c slot env v = env v := by
  refine merged_of_ne fun q hq heq => hv ?_
  have hlive := (hf.phis_iff c q).1 hq
  exact ⟨q, (hf.definition_iff v (.phi q)).2 ⟨hlive.1, heq⟩, hlive.2⟩

lemma merged_phi (hf : f.Exact) {q : PhiId} (hq : f.LivePhi q)
    (hc : (f.phi q).block = c) {u : ValueId} (hu : (f.phi q).operands[slot]? = some u) :
    merged f c slot env (f.phi q).value = env u := by
  cases hfind : (f.block c).phis.find? fun p => decide ((f.phi p).value = (f.phi q).value) with
  | none =>
    rw [find?_eq_none] at hfind
    exact absurd (decide_eq_true rfl) (hfind q ((hf.phis_iff c q).2 ⟨hq, hc⟩))
  | some p =>
    have hp := (hf.phis_iff c p).1 (mem_of_find?_eq_some hfind)
    have hvalue : (f.phi p).value = (f.phi q).value := by
      simpa using find?_some hfind
    have hsame : Site.phi p = Site.phi q :=
      hf.defines_unique (v := (f.phi q).value) ⟨hp.1, hvalue⟩ ⟨hq, rfl⟩
    obtain rfl : p = q := Site.phi.inj hsame
    rw [merged, hfind]
    simp [hu]

lemma merged_cases (h : f.Flow fun _ => False) (hslot : (f.predecessors c)[slot]? = some b)
    (v : ValueId) :
    (¬f.IsPhiOf v c ∧ ∀ env : ValueId → D, merged f c slot env v = env v) ∨
      ∃ q u, f.LivePhi q ∧ (f.phi q).block = c ∧ (f.phi q).value = v ∧
        (f.phi q).operands[slot]? = some u ∧ u ∈ (f.phi q).operands ∧ f.AvailEnd u b ∧
        ∀ env : ValueId → D, merged f c slot env v = env u := by
  by_cases hv : f.IsPhiOf v c
  · obtain ⟨q, hq, rfl⟩ := hv
    obtain ⟨hlive, rfl⟩ := (h.exact.definition_iff v (.phi q)).1 hq
    obtain ⟨u, hget, hmem, hav⟩ := h.operand_at hlive not_false hslot
    exact .inr ⟨q, u, hlive, rfl, rfl, hget, hmem, hav, fun _ => merged_phi h.exact hlive rfl hget⟩
  · exact .inl ⟨hv, fun _ => merged_of_not_isPhiOf h.exact hv⟩

/-- The phis of `c` that give `v` a content are, up to names, those of `d` that give `w` one. -/
lemma merged_eq_merged {g : Function} {d : BlockId} {v w : ValueId} {read : ValueId → ValueId}
    {env' : ValueId → D} (h : f.Flow fun _ => False) (hslot : (f.predecessors c)[slot]? = some b)
    (hforth : ∀ q ∈ (f.block c).phis, (f.phi q).value = v →
      ∃ p ∈ (g.block d).phis, (g.phi p).value = w)
    (hback : ∀ p ∈ (g.block d).phis, (g.phi p).value = w → ∃ q ∈ (f.block c).phis,
      (f.phi q).value = v ∧ (g.phi p).operands = (f.phi q).operands.map read)
    (hold : ¬f.IsPhiOf v c → env' w = env v)
    (hread : ∀ q ∈ (f.block c).phis, (f.phi q).value = v → ∀ u ∈ (f.phi q).operands,
      f.AvailEnd u b → env' (read u) = env u) :
    merged g d slot env' w = merged f c slot env v := by
  cases hp : (g.block d).phis.find? fun p => decide ((g.phi p).value = w) with
  | none =>
    have hv : ¬f.IsPhiOf v c := by
      rintro ⟨q, hq, rfl⟩
      obtain ⟨hlive, hvalue⟩ := (h.exact.definition_iff v (.phi q)).1 hq
      obtain ⟨p, hmem, hw⟩ := hforth q ((h.exact.phis_iff _ q).2 ⟨hlive, rfl⟩) hvalue
      exact find?_eq_none.1 hp p hmem (decide_eq_true hw)
    rw [merged_of_not_isPhiOf h.exact hv, merged, hp]
    exact hold hv
  | some p =>
    obtain ⟨q, hq, rfl, hoperands⟩ :=
      hback p (mem_of_find?_eq_some hp) (of_decide_eq_true (find?_some hp :))
    obtain ⟨hlive, hblock⟩ := (h.exact.phis_iff c q).1 hq
    obtain ⟨u, hget, hmem, hav⟩ := h.operand_at hlive not_false (hblock ▸ hslot)
    rw [merged_phi h.exact hlive hblock hget, merged, hp]
    simpa [hoperands, hget] using hread q hq rfl u hmem hav

end

/-! ## The order of definitions -/

lemma trail_before {f : Function} (h : f.Trail (b :: t)) (hc : c ∈ t) :
    ∃ t', f.Trail (c :: t') ∧ (c :: t') <:+ t := by
  obtain ⟨p, t, rfl⟩ := exists_cons_of_ne_nil (ne_nil_of_mem hc)
  exact h.tail.until hc

/-- `u` is available where `x` is defined. -/
structure Precedes (f : Function) (u x : ValueId) : Prop where
  ne : u ≠ x
  phi : ∀ q, (f.value x).definition = some (.phi q) → ∀ t, f.Trail ((f.phi q).block :: t) →
    ∃ e ∈ t, f.definingBlock? u = some e
  insn : ∀ k, (f.value x).definition = some (.insn k) → ∀ before after,
    (f.block (f.insn k).block).insns = before ++ k :: after →
      f.AvailBefore u (f.insn k).block before

namespace Precedes

variable {f : Function} {u x : ValueId} {before rest : List InsnId} {i : InsnId}

section

variable (h : Precedes f u x) (hf : f.Exact)
include h hf

lemma not_of_trail {e : BlockId} (ht : f.Trail (c :: t)) (hx : f.definingBlock? x = some c)
    (hu : f.definingBlock? u = some e) (he : e ∉ c :: t) : False := by
  rw [Function.definingBlock?_eq] at hx
  obtain ⟨s, hs, rfl⟩ := map_eq_some_iff.1 hx
  cases s with
  | phi q =>
    obtain ⟨e', he', hu'⟩ := h.phi q hs t ht
    obtain rfl := some.inj (hu.symm.trans hu')
    exact he (mem_cons_of_mem _ he')
  | insn k =>
    have hk : (f.insn k).dest = some x := (hf.definition_iff x (.insn k)).1 hs
    have hmem := (hf.insns_iff _ k).2 ⟨hf.live_of_dest hk, rfl⟩
    obtain ⟨pre, post, hsplit⟩ := append_of_mem hmem
    rcases h.insn k hs pre post hsplit with ⟨j, hj, hdest⟩ | hstart
    · have hj' := (hf.insns_iff (f.insn k).block j).1 (by simp [hsplit, hj])
      rw [hf.definingBlock?_of_dest hdest, hj'.2] at hu
      exact he (some.inj hu ▸ mem_cons_self)
    · rcases hstart t ht with ⟨e', he', hu'⟩ | hphi
      · obtain rfl := some.inj (hu.symm.trans hu')
        exact he (mem_cons_of_mem _ he')
      · rw [hphi.definingBlock?] at hu
        exact he (some.inj hu ▸ mem_cons_self)

lemma not_availStart (ht : f.Trail (b :: t)) (hu : f.definingBlock? u = some b) :
    ¬f.AvailStart x b := by
  intro hav
  obtain ⟨t, ht, hb⟩ := ht.once
  rcases hav t ht with ⟨c, hc, hdef⟩ | ⟨q, hq, hblock⟩
  · obtain ⟨t', ht', hsuffix⟩ := trail_before ht hc
    exact h.not_of_trail hf ht' hdef hu fun hmem => hb (hsuffix.subset hmem)
  · obtain ⟨e, he, hu'⟩ := h.phi q hq t (hblock ▸ ht)
    obtain rfl := some.inj (hu.symm.trans hu')
    exact hb he

lemma not_availBefore (ht : f.Trail (b :: t)) (hb : (f.block b).insns = before ++ i :: rest)
    (hu : (f.insn i).dest = some u) : ¬f.AvailBefore x b (before ++ [i]) := by
  have hi := hf.of_split hb
  have hdefu : f.definingBlock? u = some b := by rw [hf.definingBlock?_of_dest hu, hi.2]
  rintro (⟨j, hj, hx⟩ | hstart)
  · -- `x` is defined in the same block; then `u` is defined before it there, or from before
    have hj' := (hf.insns_iff b j).1 (by
      rw [hb, append_cons]
      exact mem_append_left rest hj)
    have hne : j ≠ i := fun heq => h.ne (some.inj (hu.symm.trans (heq ▸ hx)))
    have hjb : j ∈ before := (mem_append.1 hj).resolve_right fun hji =>
      hne (mem_singleton.1 hji)
    obtain ⟨pre, post, rfl⟩ := append_of_mem hjb
    have hsplit : (f.block (f.insn j).block).insns = pre ++ j :: (post ++ i :: rest) := by
      rw [hj'.2, hb]
      simp
    rcases h.insn j ((hf.definition_iff x (.insn j)).2 hx) pre _ hsplit with ⟨k, hk, hku⟩ | hav
    · obtain rfl : k = i := hf.insn_unique hku hu
      have hnodup := hf.insns_nodup b
      rw [hb, append_assoc] at hnodup
      exact (nodup_append.1 hnodup).2.2 k hk k (by simp) rfl
    · rw [hj'.2] at hav
      obtain ⟨t, ht, hbt⟩ := ht.once
      rcases hav t ht with ⟨e, he, hue⟩ | ⟨q, hq, -⟩
      · obtain rfl := some.inj (hdefu.symm.trans hue)
        exact hbt he
      · exact hf.not_isPhiOf hu ⟨q, hq, rfl⟩
  · exact h.not_availStart hf ht hdefu hstart

end

end Precedes

/-! ## Copies along a run -/

/-- Where `x` is available it holds the content of `u`. -/
def Copied {D : Type} (f : Function) (x u : ValueId) (b : BlockId) (before : List InsnId)
    (env : ValueId → D) : Prop :=
  f.AvailBefore x b before → env x = env u

namespace Copied

variable {D : Type} {f : Function} {x u : ValueId} {before rest : List InsnId} {i : InsnId}
  {env : ValueId → D}

section

variable (h : Copied f x u b before env)
include h

lemma assign (hpre : Precedes f u x) (hf : f.Exact) (ht : f.Trail (b :: t))
    (hb : (f.block b).insns = before ++ i :: rest) {d : D}
    (hd : (f.insn i).dest = some x → d = env u) :
    Copied f x u b (before ++ [i]) (assign env (f.insn i).dest d) := by
  intro hav
  cases hdest : (f.insn i).dest with
  | none => exact h (hav.snoc_cases.resolve_left (by simp [hdest]))
  | some w =>
    by_cases hwu : w = u
    · exact absurd hav (hpre.not_availBefore hf ht hb (hwu ▸ hdest))
    by_cases hwx : w = x
    · subst hwx
      simp [Semantics.assign, Function.update_of_ne hpre.ne, hd hdest]
    · have hold := hav.snoc_cases.resolve_left fun hx => hwx (some.inj (hdest.symm.trans hx))
      simp only [Semantics.assign]
      rw [Function.update_of_ne (Ne.symm hwx), Function.update_of_ne (Ne.symm hwu)]
      exact h hold

lemma pass (hi : (f.insn i).dest ≠ some x) : Copied f x u b (before ++ [i]) env :=
  fun hav => h (hav.snoc_cases.resolve_left hi)

lemma merged (hpre : Precedes f u x) (hflow : f.Flow fun _ => False) (ht : f.Trail (b :: t))
    {slot : Nat} (hslot : (f.predecessors c)[slot]? = some b)
    (hend : f.AvailEnd x b → f.AvailBefore x b before)
    (hphi : ∀ q, (f.value x).definition = some (.phi q) → ∀ v ∈ (f.phi q).operands, v = u ∨ v = x) :
    Copied f x u c [] (merged f c slot env) := by
  have hf := hflow.exact
  have hpred : b ∈ f.predecessors c := mem_of_getElem? hslot
  rintro (⟨j, hj, -⟩ | hav)
  · cases hj
  have hu : ¬f.IsPhiOf u c := fun hphi =>
    hpre.not_availStart hf (.step ht hpred) hphi.definingBlock? hav
  rw [merged_of_not_isPhiOf hf hu]
  rcases merged_cases hflow hslot x with ⟨hx, hmerge⟩ |
    ⟨q, w, hlive, -, hvalue, -, hmem, hav', hmerge⟩
  · rw [hmerge]
    exact h (hend (hav.at_pred hx hpred))
  · rw [hmerge]
    rcases hphi q ((hf.definition_iff x (.phi q)).2 ⟨hlive, hvalue⟩) w hmem with rfl | rfl
    · rfl
    · exact h (hend hav')

end

end Copied

end Dissolve.Semantics
