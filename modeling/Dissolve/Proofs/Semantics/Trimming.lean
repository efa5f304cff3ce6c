import Dissolve.Proofs.Semantics.Cleanup
import Dissolve.Proofs.Ssa.Unreachable

/-!
# Proofs.Semantics.Trimming — unreached blocks make no difference

A run stays in blocks that a path from the entry reaches. Without the other blocks it goes the same way:
a reached block keeps its place among the reached predecessors of its successors, so phis take up the
same operands (`occurrence_filter`).

Main statement: a function and what is left of it without the unreached blocks show the same
(`Trimmed.shows_iff`).
-/

namespace Dissolve.Semantics

open List
open Machine (Ending)
open Ssa (Function Op)
open Ssa.Function

section Occurrence

variable {α : Type} [DecidableEq α] {p : α → Bool} {a : α} {n : Nat} {xs : List α}

lemma occurrence_filter_none (ha : p a) (h : occurrence a n xs = none) :
    occurrence a n (xs.filter p) = none := by
  induction xs generalizing n with
  | nil => exact h
  | cons x xs ih =>
    by_cases hx : x = a
    · subst hx
      rw [filter_cons_of_pos ha]
      cases n with
      | zero => simp [occurrence] at h
      | succ n => simpa [occurrence] using ih (by simpa [occurrence] using h)
    · have hrest := ih (n := n) (by cases n <;> simpa [occurrence, hx] using h)
      rw [filter_cons]
      split
      · cases n <;> simpa [occurrence, hx] using hrest
      · exact hrest

theorem occurrence_filter {slot : Nat} (ha : p a) (h : occurrence a n xs = some slot) :
    ∃ slot', occurrence a n (xs.filter p) = some slot' ∧
      ∀ {β : Type} (ys : List β), (keepBy p xs ys)[slot']? = ys[slot]? := by
  induction xs generalizing n slot with
  | nil => cases n <;> cases h
  | cons x xs ih =>
    by_cases hx : x = a
    · subst hx
      rw [filter_cons_of_pos ha]
      cases n with
      | zero =>
        simp only [occurrence, if_true, Option.some.injEq] at h
        subst h
        refine ⟨0, by simp [occurrence], fun ys => ?_⟩
        cases ys <;> simp [keepBy, ha]
      | succ n =>
        simp only [occurrence, if_true, Option.map_eq_some_iff] at h
        obtain ⟨s, hs, rfl⟩ := h
        obtain ⟨s', hs', hpartner⟩ := ih hs
        refine ⟨s' + 1, by simp [occurrence, hs'], fun ys => ?_⟩
        cases ys with
        | nil => simp
        | cons y ys => simpa [keepBy, ha] using hpartner ys
    · have hstep : ∀ ys : List α, occurrence a n (x :: ys) = (occurrence a n ys).map (· + 1) :=
        fun ys => by cases n <;> simp [occurrence, hx]
      rw [hstep, Option.map_eq_some_iff] at h
      obtain ⟨s, hs, rfl⟩ := h
      obtain ⟨s', hs', hpartner⟩ := ih hs
      by_cases hp : p x = true
      · refine ⟨s' + 1, by rw [filter_cons_of_pos hp, hstep, hs']; rfl, fun ys => ?_⟩
        cases ys with
        | nil => simp
        | cons y ys => simpa [keepBy, hp] using hpartner ys
      · refine ⟨s', by rw [filter_cons_of_neg hp, hs'], fun ys => ?_⟩
        cases ys with
        | nil => simp
        | cons y ys => simpa [keepBy, hp] using hpartner ys

end Occurrence

namespace Trimmed

variable {D : Type} {f g : Function} {b c : BlockId} {env : ValueId → D} {params : List D}

lemma insn_eq (h : f.Trimmed g) (hinsns : ∀ b, ∀ i ∈ (f.block b).insns, (f.insn i).block = b)
    (hb : f.reached b) {i : InsnId} (hi : i ∈ (f.block b).insns) : g.insn i = f.insn i := by
  rw [h.insn, hinsns b i hi, if_pos hb]

lemma successors_eq (h : f.Trimmed g)
    (hinsns : ∀ b, ∀ i ∈ (f.block b).insns, (f.insn i).block = b) (hb : f.reached b) :
    g.normalSuccessors b = f.normalSuccessors b ∧ g.successors b = f.successors b := by
  have hnormal : g.normalSuccessors b = f.normalSuccessors b := by
    rw [normalSuccessors, normalSuccessors, terminator?, terminator?, h.block b hb]
    cases hlast : (f.block b).insns.getLast? with
    | none => rfl
    | some i =>
      have hi := insn_eq h hinsns hb (mem_of_getLast? hlast)
      rw [Option.filter_some, Option.filter_some, hi]
      cases (f.insn i).op.isTerminator
      · rfl
      · simp only [if_true, hi]
  rw [successors, successors, hnormal, h.block b hb]
  exact ⟨rfl, rfl⟩

lemma merged_eq (h : f.Trimmed g) (hphis : ∀ b, ∀ q ∈ (f.block b).phis, (f.phi q).block = b)
    (hc : f.reached c) {slot slot' : Nat}
    (hslot : ∀ ys : List ValueId, (keepBy f.reached (f.predecessors c) ys)[slot']? = ys[slot]?) :
    merged g c slot' env = merged f c slot env := by
  have hphi : ∀ q ∈ (f.block c).phis, g.phi q = { f.phi q with
      operands := keepBy f.reached (f.predecessors c) (f.phi q).operands } := fun q hq => by
    rw [h.phi, hphis c q hq, if_pos hc]
    rfl
  have hfind : ∀ (v : ValueId) (qs : List PhiId), (∀ q ∈ qs, (g.phi q).value = (f.phi q).value) →
      qs.find? (fun q => decide ((g.phi q).value = v)) =
        qs.find? fun q => decide ((f.phi q).value = v) := by
    intro v qs hqs
    induction qs with
    | nil => rfl
    | cons q qs ih =>
      rw [find?_cons, find?_cons, hqs q mem_cons_self,
        ih fun q' h' => hqs q' (mem_cons_of_mem q h')]
  funext v
  unfold merged
  rw [h.block c hc]
  rw [hfind v _ fun q hq => by rw [hphi q hq]]
  cases hcase : (f.block c).phis.find? fun q => decide ((f.phi q).value = v) with
  | none => rfl
  | some q =>
    dsimp only
    rw [hphi q (mem_of_find?_eq_some hcase), hslot]

/-- The block is reached, and both runs have the same contents. -/
def Along (f : Function) (b : BlockId) (_ : List InsnId) (env env' : ValueId → D) : Prop :=
  f.reached b = true ∧ (f.block b).removed = false ∧ env' = env

section Lockstep

variable (h : f.Trimmed g) (hinsns : ∀ b, ∀ i ∈ (f.block b).insns, (f.insn i).block = b)
  (hphis : ∀ b, ∀ q ∈ (f.block b).phis, (f.phi q).block = b)
  (hlast : ∀ b before i rest, (f.block b).insns = before ++ i :: rest →
    (f.insn i).op.isTerminator → rest = [])
  (htargets : ∀ b, ∀ c ∈ f.successors b, f.LiveBlock c)

include h hinsns hphis htargets

lemma follow_inStep (hb : f.reached b) (hlive : f.LiveBlock b) (n : Nat) :
    InStep f id id (Along f) (follow f b n env) (follow g b n env) := by
  unfold follow
  rw [(successors_eq h hinsns hb).2]
  cases hsucc : (f.successors b)[n]? with
  | none => exact .ended _
  | some c =>
    have hmem := mem_of_getElem? hsucc
    have hc := htargets b c hmem
    have hreached := reached_of_successor hb hlive hmem (f.lt_blocks_of_live hc)
    have hpreds : g.predecessors c = (f.predecessors c).filter f.reached := by
      rw [predecessors, h.block c hreached]
      rfl
    dsimp only
    rw [hpreds]
    cases hslot : occurrence b (((f.successors b).take n).count c) (f.predecessors c) with
    | none =>
      rw [occurrence_filter_none hb hslot]
      exact .ended _
    | some slot =>
      obtain ⟨slot', hslot', hpartner⟩ := occurrence_filter hb hslot
      have hrunning : InStep f id id (Along f)
          (.running c (f.block c).insns (merged f c slot env))
          (.running (id c) ((f.block c).insns.map id) (merged f c slot env)) :=
        .running (nil_append _).symm ⟨hreached, hc, rfl⟩
      rw [hslot']
      dsimp only
      rw [merged_eq h hphis hreached hpartner, h.block c hreached]
      simpa using hrunning

include hlast

lemma lockstep : Lockstep f g id id id (Along (D := D) f) where
  op := by
    rintro b before i rest env env' ⟨hb, -, -⟩ hlist
    rw [id, insn_eq h hinsns hb (by simp [hlist]), Op.mapTargets_id]
    exact (Op.mapOperands_id _).symm
  dest := by
    rintro b before i rest env env' ⟨hb, -, -⟩ hlist
    rw [id, insn_eq h hinsns hb (by simp [hlist]), Option.map_id]
    rfl
  operands := by
    rintro b before i rest env env' ⟨-, -, rfl⟩ hlist v hv
    rfl
  handlers := by
    rintro b before env env' ⟨hb, -, -⟩
    rw [id, h.block b hb]
  normal := by
    rintro b before env env' ⟨hb, -, -⟩
    rw [id, (successors_eq h hinsns hb).1]
  last := by
    intro b before i rest env env' _ hlist hterm
    exact hlast b before i rest hlist hterm
  pass := fun hP _ _ => hP
  assign := by
    rintro b before i rest env env' ⟨hb, hlive, rfl⟩ hlist hterm d
    exact ⟨hb, hlive, by rw [Option.map_id]; rfl⟩
  follow := by
    rintro b before i rest env env' n ⟨hb, hlive, rfl⟩ hlist hend
    exact follow_inStep h hinsns hphis htargets hb hlive n

theorem shows_iff (hentry : f.LiveBlock f.entry)
    {trace : List (Question D × Answer D)} {ending : Option (Ending D)} :
    Shows (next f params) (start f env) trace ending ↔
      Shows (next g params) (start g env) trace ending := by
  have hreached := reached_entry hentry
  have hstart : InStep f id id (Along f) (start f env)
      (.running (id f.entry) ((f.block f.entry).insns.map id) env) :=
    .running (nil_append _).symm ⟨hreached, hentry, rfl⟩
  rw [(lockstep h hinsns hphis hlast htargets).shows_iff hstart, map_id]
  have hblock := congrArg Ssa.Block.insns (h.block f.entry hreached)
  rw [start, show g.entry = f.entry from rfl, hblock]
  rfl

end Lockstep

end Trimmed

end Dissolve.Semantics
