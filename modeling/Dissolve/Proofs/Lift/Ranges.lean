import Dissolve.Proofs.Lift.Ending

/-!
# Proofs.Lift.Ranges — the ranges of a body

`Layout.Lays` collects what is known of a layout that was built: the ranges follow each other
without gap, an instruction that ends a block is the last of its range, the edges of a range are
those of its last instruction, and a jump enters its target behind labels at most. A body without
a layout is at fault (`build_blames`).
-/

namespace Dissolve

open List

variable {insn : Instruction} {i j k o offset start stop user x y : Nat} {e : Error} {l : Label}
  {starts : List Nat} {entry : HandlerEntry}

namespace Lift

/-! ## Results of failing computations -/

section Except

variable {α β : Type} {f : α → Except Error β}

lemma ok_of_bind {x : Except Error α} {b : β} (h : x >>= f = .ok b) :
    ∃ a, x = .ok a ∧ f a = .ok b := by
  cases x with
  | error e => cases h
  | ok a => exact ⟨a, rfl, h⟩

lemma forall₂_of_mapM {xs : List α} {ys : List β} (h : xs.mapM f = .ok ys) :
    List.Forall₂ (fun x y => f x = .ok y) xs ys := by
  induction xs generalizing ys with
  | nil =>
    cases h
    exact .nil
  | cons x rest ih =>
    rw [mapM_cons] at h
    obtain ⟨y, hy, h⟩ := ok_of_bind h
    obtain ⟨ys', hys', h⟩ := ok_of_bind h
    cases h
    exact .cons hy (ih hys')

end Except

open Code (Instruction Body HandlerEntry)

variable {method : MethodRef} {insns : List Instruction} {labels : Assoc Label Nat}
  {table : List Protected} {guards : Assoc Nat (Option TypeRef)}

/-! ## Starts of ranges -/

lemma backOverLabels_le (insns : List Instruction) (o : Nat) : backOverLabels insns o ≤ o := by
  induction o with
  | zero => exact Nat.le_refl 0
  | succ o ih =>
    rw [backOverLabels]
    split
    · exact Nat.le_succ_of_le ih
    · exact Nat.le_refl _

lemma isLabel_of_backOverLabels_le (h : backOverLabels insns o ≤ i) (hi : i < o) :
    (insnAt insns i).isLabel := by
  induction o with
  | zero => omega
  | succ o ih =>
    rw [backOverLabels] at h
    split at h
    · next hlabel =>
        rcases Nat.lt_or_ge i o with hlt | hge
        · exact ih h hlt
        · rwa [show i = o by omega]
    · omega

lemma mem_rangeStarts :
    o ∈ rangeStarts insns starts ↔
      o < insns.length ∧ ∃ x ∈ starts, x < insns.length ∧ backOverLabels insns x = o := by
  simp [rangeStarts, and_assoc]

lemma rangeStarts_sorted (insns : List Instruction) (starts : List Nat) :
    (rangeStarts insns starts).Pairwise (· < ·) :=
  pairwise_lt_range.filter _

lemma le_iff_lt_length_filter (h : starts.Pairwise (· < ·)) (o : Nat) (hi : starts[i]? = some x) :
    x ≤ o ↔ i < (starts.filter (· ≤ o)).length := by
  induction starts generalizing i with
  | nil => simp at hi
  | cons a rest ih =>
    obtain ⟨hall, hrest⟩ := pairwise_cons.1 h
    by_cases hao : a ≤ o
    · rw [filter_cons_of_pos (by simpa using hao), length_cons]
      cases i with
      | zero =>
        obtain rfl : a = x := by simpa using hi
        simp [hao]
      | succ i =>
        rw [ih hrest (by simpa using hi)]
        omega
    · have hnone : rest.filter (· ≤ o) = [] := by
        rw [filter_eq_nil_iff]
        intro y hy
        have := hall y hy
        simp only [decide_eq_true_eq]
        omega
      rw [filter_cons_of_neg (by simpa using hao), hnone]
      have hx : a ≤ x := by
        rcases mem_cons.1 (mem_of_getElem? hi) with rfl | hmem
        · exact Nat.le_refl _
        · exact Nat.le_of_lt (hall x hmem)
      simp only [length_nil, Nat.not_lt_zero, iff_false]
      omega

def stopOf (starts : List Nat) (length k : Nat) : Nat :=
  (starts[k + 1]?).getD length

/-- The starts cut a stream into ranges. -/
structure Cuts (insns : List Instruction) (starts : List Nat) : Prop where
  sorted : starts.Pairwise (· < ·)
  first : starts[0]? = some 0
  lt : ∀ x ∈ starts, x < insns.length

namespace Cuts

section

variable (h : Cuts insns starts)
include h

lemma lt_of_getElem? (hi : starts[i]? = some x)
    (hj : starts[j]? = some y) (hij : i < j) : x < y := by
  have hpair := (pairwise_iff_getElem.1 h.sorted) i j
  obtain ⟨hi', rfl⟩ := List.getElem?_eq_some_iff.1 hi
  obtain ⟨hj', rfl⟩ := List.getElem?_eq_some_iff.1 hj
  exact hpair hi' hj' hij

lemma lt_stopOf (hk : starts[k]? = some x) : x < stopOf starts insns.length k := by
  unfold stopOf
  cases hnext : starts[k + 1]? with
  | none => exact h.lt x (mem_of_getElem? hk)
  | some y => exact h.lt_of_getElem? hk hnext (Nat.lt_succ_self k)

lemma stopOf_le (k : Nat) : stopOf starts insns.length k ≤ insns.length := by
  unfold stopOf
  cases hnext : starts[k + 1]? with
  | none => exact Nat.le_refl _
  | some y => exact Nat.le_of_lt (h.lt y (mem_of_getElem? hnext))

lemma stopOf_le_of_lt (hk : starts[k]? = some x)
    (hy : y ∈ starts) (hlt : x < y) : stopOf starts insns.length k ≤ y := by
  obtain ⟨j, hj⟩ := mem_iff_getElem?.1 hy
  have hkj : k < j := by
    by_contra hge
    rcases Nat.lt_or_eq_of_le (Nat.le_of_not_lt hge) with hjk | rfl
    · have := h.lt_of_getElem? hj hk hjk
      omega
    · rw [hk] at hj
      cases hj
      omega
  have hnext : ∃ z, starts[k + 1]? = some z ∧ z ≤ y := by
    have hlen := (List.getElem?_eq_some_iff.1 hj).1
    obtain ⟨z, hz⟩ : ∃ z, starts[k + 1]? = some z := ⟨_, List.getElem?_eq_getElem (by omega)⟩
    refine ⟨z, hz, ?_⟩
    rcases Nat.lt_or_eq_of_le hkj with hlt' | heq
    · exact Nat.le_of_lt (h.lt_of_getElem? hz hj hlt')
    · rw [← heq] at hj
      rw [hz] at hj
      cases hj
      exact Nat.le_refl _
  obtain ⟨z, hz, hzy⟩ := hnext
  simpa [stopOf, hz] using hzy

lemma rangeOf_spec (ho : o < insns.length) :
    ∃ x, starts[rangeOf starts o]? = some x ∧ x ≤ o ∧ o < stopOf starts insns.length (rangeOf starts o) := by
  have hpos : 0 < (starts.filter (· ≤ o)).length :=
    (le_iff_lt_length_filter h.sorted o h.first).1 (Nat.zero_le o)
  have hlen : (starts.filter (· ≤ o)).length ≤ starts.length := length_filter_le _ _
  obtain ⟨x, hx⟩ : ∃ x, starts[rangeOf starts o]? = some x :=
    ⟨_, getElem?_eq_getElem (by unfold rangeOf; omega)⟩
  refine ⟨x, hx, ?_, ?_⟩
  · refine (le_iff_lt_length_filter h.sorted o hx).2 ?_
    unfold rangeOf
    omega
  · unfold stopOf
    cases hnext : starts[rangeOf starts o + 1]? with
    | none => exact ho
    | some y =>
      have hy := mt (le_iff_lt_length_filter h.sorted o hnext).1 (by unfold rangeOf; omega)
      exact Nat.lt_of_not_le hy

lemma rangeOf_lt (o : Nat) : rangeOf starts o < starts.length := by
  have hpos : 0 < (starts.filter (· ≤ o)).length :=
    (le_iff_lt_length_filter h.sorted o h.first).1 (Nat.zero_le o)
  have hlen : (starts.filter (· ≤ o)).length ≤ starts.length := length_filter_le _ _
  unfold rangeOf
  omega

end

end Cuts

lemma cuts_rangeStarts (hne : insns ≠ []) (h0 : 0 ∈ starts) :
    Cuts insns (rangeStarts insns starts) := by
  have hpos : 0 < insns.length := length_pos_iff.2 hne
  refine ⟨rangeStarts_sorted insns starts, ?_, fun x hx => (mem_rangeStarts.1 hx).1⟩
  have hmem : 0 ∈ rangeStarts insns starts := mem_rangeStarts.2 ⟨hpos, 0, h0, hpos, rfl⟩
  have hsorted := rangeStarts_sorted insns starts
  cases hs : rangeStarts insns starts with
  | nil => simp [hs] at hmem
  | cons a rest =>
    rw [hs] at hmem hsorted
    rcases mem_cons.1 hmem with rfl | hrest
    · rfl
    · have := (pairwise_cons.1 hsorted).1 0 hrest
      omega

/-! ## Labels -/

lemma get?_of_collectLabels {found : Assoc Label Nat}
    (h : collectLabels method offset insns labels = .ok found) (l : Label) (o : Nat) :
    found.get? l = some o ↔
      labels.get? l = some o ∨ ∃ i, insns[i]? = some (.label l) ∧ o = offset + i := by
  fun_induction collectLabels method offset insns labels with
  | case1 offset labels =>
    cases h
    simp
  | case2 offset name rest labels hdefined => cases h
  | case3 offset name rest labels hnew ih =>
    have hnone : labels.get? name = none := by simpa [Assoc.contains] using hnew
    rw [ih h, Assoc.get?_insert]
    constructor
    · rintro (hget | ⟨i, hi, rfl⟩)
      · split at hget
        · next heq =>
            cases hget
            exact .inr ⟨0, by simp [heq], rfl⟩
        · exact .inl hget
      · exact .inr ⟨i + 1, by simpa using hi, by omega⟩
    · rintro (hget | ⟨i, hi, rfl⟩)
      · have hne : name ≠ l := by
          rintro rfl
          simp [hnone] at hget
        exact .inl (by rw [if_neg hne, hget])
      · cases i with
        | zero =>
          have heq : name = l := by simpa using hi
          exact .inl (by simp [heq])
        | succ i => exact .inr ⟨i, by simpa using hi, by omega⟩
  | case4 offset insn rest labels hother ih =>
    rw [ih h]
    refine or_congr_right ⟨?_, ?_⟩
    · rintro ⟨i, hi, rfl⟩
      exact ⟨i + 1, by simpa using hi, by omega⟩
    · rintro ⟨i, hi, rfl⟩
      cases i with
      | zero => exact (hother l (by simpa using hi)).elim
      | succ i => exact ⟨i, by simpa using hi, by omega⟩

lemma resolveLabel_eq_ok : resolveLabel method labels user l = .ok o ↔ labels.get? l = some o := by
  unfold resolveLabel
  split
  · next heq => simp [heq]
  · next heq => simp [heq]

lemma offsets_of_resolveEntry {p : Protected} (h : resolveEntry method labels entry = .ok p) :
    labels.get? entry.start = some p.start ∧
      labels.get? entry.stop = some p.stop ∧ labels.get? entry.handler = some p.handler := by
  obtain ⟨start, hstart, h⟩ := ok_of_bind h
  obtain ⟨stop, hstop, h⟩ := ok_of_bind h
  obtain ⟨handler, hhandler, h⟩ := ok_of_bind h
  split at h
  · cases h
  · cases h
    exact ⟨resolveLabel_eq_ok.1 hstart, resolveLabel_eq_ok.1 hstop, resolveLabel_eq_ok.1 hhandler⟩

lemma mem_of_collectStarts {found : List Nat}
    (h : collectStarts method labels table offset insns = .ok found) (hi : insns[i]? = some insn) :
    (endsRange table (offset + i) insn → offset + i + 1 ∈ found) ∧
      ∀ l ∈ insn.branchTargets, ∃ o, labels.get? l = some o ∧ o ∈ found := by
  induction insns generalizing offset found i with
  | nil => simp at hi
  | cons first rest ih =>
    obtain ⟨targets, htargets, h⟩ := ok_of_bind h
    obtain ⟨later, hlater, h⟩ := ok_of_bind h
    cases h
    cases i with
    | zero =>
      obtain rfl : first = insn := by simpa using hi
      refine ⟨fun hends => by simp [show endsRange table offset _ = true from hends], fun l hl => ?_⟩
      obtain ⟨n, hn, rfl⟩ := getElem_of_mem hl
      have hall := forall₂_of_mapM htargets
      have hn' : n < targets.length := hall.length_eq ▸ hn
      refine ⟨targets[n], resolveLabel_eq_ok.1 (hall.get hn hn'), ?_⟩
      simp
    | succ i =>
      obtain ⟨hends, htargets'⟩ := ih hlater (i := i) (by simpa using hi)
      refine ⟨fun h => ?_, fun l hl => ?_⟩
      · rw [show offset + (i + 1) = offset + 1 + i by omega] at h ⊢
        simp [hends h]
      · obtain ⟨o, ho, hmem⟩ := htargets' l hl
        exact ⟨o, ho, by simp [hmem]⟩

lemma isLabel_of_endsBlock (h : insn.endsBlock) : insn.isLabel = false := by
  cases insn with
  | label name => exact Bool.noConfusion (show false = true from h)
  | _ => rfl

lemma isLabel_of_endsRange (h : endsRange table o insn) : insn.isLabel = false := by
  cases insn with
  | label name => exact Bool.noConfusion (show false = true from h)
  | _ => rfl

lemma flow_of_endsBlock_false (h : insn.endsBlock = false) :
    insn.fallsThrough ∧ insn.branchTargets = [] := by
  cases insn with
  | branch | branchCmp | goto | tableSwitch | lookupSwitch | ret | throw =>
    exact Bool.noConfusion (show true = false from h)
  | _ => exact ⟨rfl, rfl⟩

lemma mem_realOffsets :
    o ∈ realOffsets insns start stop ↔
      (start ≤ o ∧ o < stop) ∧ (insnAt insns o).isLabel = false := by
  simp only [realOffsets, mem_filter, mem_map, mem_range, Bool.not_eq_true']
  refine and_congr_left fun _ => ⟨?_, fun h => ⟨o - start, by omega, by omega⟩⟩
  rintro ⟨i, hi, rfl⟩
  omega

lemma getLast?_realOffsets (hlt : start < stop) (h : (insnAt insns (stop - 1)).isLabel = false) :
    (realOffsets insns start stop).getLast? = some (stop - 1) := by
  obtain ⟨n, hn⟩ : ∃ n, stop - start = n + 1 := ⟨stop - start - 1, by omega⟩
  have hlast : start + n = stop - 1 := by omega
  simp [realOffsets, hn, range_succ, hlast, h]

lemma exists_of_mem_handlerEdges {found : List (Option TypeRef × Nat)}
    {g : Option TypeRef × Nat} (h : g ∈ handlerEdges starts table found) :
    g ∈ found ∨ ∃ entry ∈ table, g.2 = rangeOf starts entry.handler := by
  induction table generalizing found with
  | nil => exact .inl h
  | cons entry rest ih =>
    have hfound : ∀ g : Option TypeRef × Nat,
        g ∈ (if found.any fun h => h.2 = rangeOf starts entry.handler then found
          else found ++ [(entry.guard, rangeOf starts entry.handler)]) →
        g ∈ found ∨ ∃ entry' ∈ entry :: rest, g.2 = rangeOf starts entry'.handler := by
      intro g hg
      split at hg
      · exact .inl hg
      · rcases mem_append.1 hg with hg | hg
        · exact .inl hg
        · obtain rfl := mem_singleton.1 hg
          exact .inr ⟨entry, mem_cons_self, rfl⟩
    rw [handlerEdges] at h
    split at h
    · exact hfound g h
    · rcases ih h with hg | ⟨entry', hmem, heq⟩
      · exact hfound g hg
      · exact .inr ⟨entry', mem_cons_of_mem entry hmem, heq⟩

/-- The ranges that jumps to labels lead to. -/
def JumpsTo (labels : Assoc Label Nat) (starts : List Nat) (targets : List Label)
    (jumps : List Nat) : Prop :=
  List.Forall₂ (fun l j => ∃ o, labels.get? l = some o ∧ j = rangeOf starts o) targets jumps

lemma jumpsTo_of_jumpEdges
    {jumps : List Nat} (h : jumpEdges method labels starts offset insn = .ok jumps) :
    JumpsTo labels starts insn.branchTargets jumps := by
  refine (forall₂_of_mapM h).imp fun l j hj => ?_
  obtain ⟨o, ho, ⟨⟩⟩ := ok_of_bind hj
  exact ⟨o, resolveLabel_eq_ok.1 ho, rfl⟩

structure Built (insns : List Instruction) (labels : Assoc Label Nat) (table : List Protected)
    (starts : List Nat) (k start stop : Nat) (r : Range) : Prop where
  start_eq : r.start = start
  stop_eq : r.stop = stop
  edges : ∃ jumps, JumpsTo labels starts (insnAt insns (stop - 1)).branchTargets jumps ∧
    r.normal = if (insnAt insns (stop - 1)).fallsThrough && !decide (k + 1 = starts.length)
      then jumps ++ [k + 1] else jumps
  fallsOff_eq : r.fallsOff =
    ((insnAt insns (stop - 1)).fallsThrough && decide (k + 1 = starts.length))
  handlers : ∀ g ∈ r.exceptional, ∃ entry ∈ table, g.2 = rangeOf starts entry.handler

def lastEdges (method : MethodRef) (insns : List Instruction) (labels : Assoc Label Nat)
    (starts : List Nat) (start stop : Nat) : Except Error (List Nat × Bool) :=
  match (realOffsets insns start stop).getLast? with
  | some o =>
    if (insnAt insns o).endsBlock then
      (·, (insnAt insns o).fallsThrough) <$> jumpEdges method labels starts o (insnAt insns o)
    else .ok ([], true)
  | none => .ok ([], true)

lemma buildRange_eq :
    buildRange method insns labels table starts k start stop =
      lastEdges method insns labels starts start stop >>= fun edges =>
        let real := realOffsets insns start stop
        .ok {
          start, stop
          normal := if edges.2 && !decide (k + 1 = starts.length) then edges.1 ++ [k + 1]
            else edges.1
          exceptional :=
            if real.any fun offset => (insnAt insns offset).mayThrow then
              handlerEdges starts (table.filter (·.covers (real.head?.getD start))) []
            else []
          fallsOff := edges.2 && decide (k + 1 = starts.length) } := by
  unfold buildRange lastEdges
  cases hlast : (realOffsets insns start stop).getLast? with
  | none =>
    simp only [hlast, Option.map_none]
    rfl
  | some o =>
    simp only [hlast, Option.map_some]
    split
    · cases jumpEdges method labels starts o (insnAt insns o) <;> rfl
    · rfl

lemma lastEdges_eq_ok {edges : List Nat × Bool}
    (h : lastEdges method insns labels starts start stop = .ok edges) (hlt : start < stop)
    (hends : ∀ o, start ≤ o → o + 1 < stop → (insnAt insns o).endsBlock = false) :
    JumpsTo labels starts (insnAt insns (stop - 1)).branchTargets edges.1 ∧
      edges.2 = (insnAt insns (stop - 1)).fallsThrough := by
  unfold lastEdges at h
  cases hend : (insnAt insns (stop - 1)).endsBlock with
  | true =>
    simp only [getLast?_realOffsets hlt (isLabel_of_endsBlock hend), hend, if_true] at h
    obtain ⟨jumps, hjumps, h⟩ := ok_of_bind h
    cases h
    exact ⟨jumpsTo_of_jumpEdges hjumps, rfl⟩
  | false =>
    obtain ⟨hfalls, htargets⟩ := flow_of_endsBlock_false hend
    have hplain : edges = ([], true) := by
      split at h
      · next o ho =>
          have hnone : (insnAt insns o).endsBlock = false := by
            obtain ⟨⟨hle, hlt'⟩, -⟩ := mem_realOffsets.1 (mem_of_getLast? ho)
            rcases Nat.lt_or_ge (o + 1) stop with hin | hout
            · exact hends o hle hin
            · rwa [show o = stop - 1 by omega]
          rw [hnone] at h
          cases h
          rfl
      · cases h
        rfl
    rw [hplain, htargets, hfalls]
    exact ⟨.nil, rfl⟩

lemma built_of_buildRange {r : Range}
    (h : buildRange method insns labels table starts k start stop = .ok r) (hlt : start < stop)
    (hends : ∀ o, start ≤ o → o + 1 < stop → (insnAt insns o).endsBlock = false) :
    Built insns labels table starts k start stop r := by
  rw [buildRange_eq] at h
  obtain ⟨edges, hedges, h⟩ := ok_of_bind h
  cases h
  obtain ⟨hjumps, hfalls⟩ := lastEdges_eq_ok hedges hlt hends
  refine ⟨rfl, rfl, ⟨edges.1, hjumps, by rw [hfalls]⟩, by rw [hfalls], fun g hg => ?_⟩
  dsimp only at hg
  split at hg
  · rcases exists_of_mem_handlerEdges hg with hg | ⟨entry, hmem, heq⟩
    · simp at hg
    · exact ⟨entry, (mem_filter.1 hmem).1, heq⟩
  · simp at hg

lemma contains_noteGuard {entry : Protected} :
    (noteGuard starts guards entry).contains j ↔
      guards.contains j ∨ j = rangeOf starts entry.handler := by
  unfold noteGuard Assoc.contains
  dsimp only
  split
  · rw [Assoc.get?_insert, eq_comm (a := j)]
    split <;> simp [*]
  · next guard hguard =>
      have hnoted : j = rangeOf starts entry.handler → (guards.get? j).isSome := by
        rintro rfl
        simp [hguard]
      split
      · exact ⟨.inl, fun h => h.elim id hnoted⟩
      · rw [Assoc.get?_insert, eq_comm (a := j)]
        split <;> simp [*]

lemma contains_foldl_noteGuard :
    (table.foldl (noteGuard starts) guards).contains j ↔
      guards.contains j ∨ ∃ entry ∈ table, j = rangeOf starts entry.handler := by
  induction table generalizing guards with
  | nil => simp
  | cons entry rest ih =>
    rw [foldl_cons, ih, contains_noteGuard]
    simp only [mem_cons, exists_eq_or_imp, or_assoc]

/-! ## The layout -/

lemma exists_of_forall₂ {α β : Type} {R : α → β → Prop} {xs : List α} {ys : List β}
    (h : List.Forall₂ R xs ys) {y : β} (hy : ys[k]? = some y) : ∃ x, xs[k]? = some x ∧ R x y := by
  obtain ⟨hk, rfl⟩ := List.getElem?_eq_some_iff.1 hy
  have hk' : k < xs.length := h.length_eq ▸ hk
  exact ⟨xs[k], getElem?_eq_getElem hk', h.get hk' hk⟩

lemma getElem?_bounds {length : Nat} {bound : (Nat × Nat) × Nat}
    (h : (starts.zip (starts.drop 1 ++ [length])).zipIdx[k]? = some bound) :
    starts[k]? = some bound.1.1 ∧ bound.1.2 = stopOf starts length k ∧ bound.2 = k := by
  obtain ⟨⟨x, y⟩, i⟩ := bound
  simp only [getElem?_zipIdx, Option.map_eq_some_iff, Prod.mk.injEq, Nat.zero_add] at h
  obtain ⟨pair, hpair, rfl, rfl⟩ := h
  obtain ⟨hx, hy⟩ := getElem?_zip_eq_some.1 hpair
  refine ⟨hx, ?_, rfl⟩
  have hk : k < starts.length := (List.getElem?_eq_some_iff.1 hx).1
  unfold stopOf
  rw [getElem?_append, length_drop] at hy
  split at hy
  · rw [getElem?_drop, Nat.add_comm] at hy
    simp [hy]
  · rw [show k - (starts.length - 1) = 0 by omega] at hy
    rw [getElem?_eq_none (by omega)]
    simpa using hy.symm

namespace Layout

/-- A jump to an offset enters range `j`: nothing but labels stands before the offset there. -/
def Enters (layout : Layout) (insns : List Instruction) (j o : Nat) : Prop :=
  ∃ r, layout.range? j = some r ∧ r.start ≤ o ∧ o < r.stop ∧
    ∀ i, r.start ≤ i → i < o → (insnAt insns i).isLabel = true

/-- The ranges of handlers are entered where the labels of the exception table stand. -/
def Handles (layout : Layout) (body : Code.Body) : Prop :=
  ∀ k, layout.isHandler k = true → ∃ entry ∈ body.handlers, ∃ o,
    layout.labels.get? entry.handler = some o ∧ layout.Enters body.instructions k o

def lastInsn (insns : List Instruction) (r : Range) : Instruction :=
  insnAt insns (r.stop - 1)

/-- What is known of the layout of a stream. -/
structure Lays (layout : Layout) (insns : List Instruction) : Prop where
  labels : ∀ l o, layout.labels.get? l = some o ↔ insns[o]? = some (.label l)
  first : ∃ r, layout.range? 0 = some r ∧ r.start = 0
  bounds : ∀ {k r}, layout.range? k = some r → r.start < r.stop ∧ r.stop ≤ insns.length
  next : ∀ {k r r'}, layout.range? k = some r → layout.range? (k + 1) = some r' →
    r'.start = r.stop
  inner : ∀ {k r}, layout.range? k = some r → ∀ o, r.start ≤ o → o + 1 < r.stop →
    (insnAt insns o).endsBlock = false
  jumps : ∀ {k r}, layout.range? k = some r → ∃ jumps,
    List.Forall₂ (fun l j => ∃ o, layout.labels.get? l = some o ∧ layout.Enters insns j o)
      (lastInsn insns r).branchTargets jumps ∧
    r.normal = if (lastInsn insns r).fallsThrough && !r.fallsOff then jumps ++ [k + 1] else jumps
  fallsOff : ∀ {k r}, layout.range? k = some r →
    (r.fallsOff = true ↔ (lastInsn insns r).fallsThrough = true ∧ k + 1 = layout.ranges.length)
  handlers : ∀ {k r}, layout.range? k = some r → ∀ g ∈ r.exceptional, layout.isHandler g.2 = true
  handler_lt : ∀ {k r}, layout.range? k = some r →
    ∀ g ∈ r.exceptional, g.2 < layout.ranges.length

namespace Lays

variable {layout : Layout} {r : Range}

lemma lt_of_range? (hr : layout.range? k = some r) : k < layout.ranges.length :=
  (List.getElem?_eq_some_iff.1 hr).1

section

variable (h : layout.Lays insns)
include h

section

variable (hr : layout.range? k = some r)
include hr

lemma normal_eq (hoff : r.fallsOff = false) : ∃ jumps,
      List.Forall₂ (fun l j => ∃ o, layout.labels.get? l = some o ∧ layout.Enters insns j o)
        (lastInsn insns r).branchTargets jumps ∧
      layout.normal k = if (lastInsn insns r).fallsThrough then jumps ++ [k + 1] else jumps := by
  obtain ⟨jumps, hjumps, heq⟩ := h.jumps hr
  refine ⟨jumps, hjumps, ?_⟩
  simpa [Layout.normal, hr, hoff] using heq

lemma length_normal
    (hoff : r.fallsOff = false) : (layout.normal k).length = edgeCount (lastInsn insns r) := by
  obtain ⟨jumps, hjumps, heq⟩ := h.normal_eq hr hoff
  rw [heq, edgeCount, hjumps.length_eq]
  split <;> simp

omit hr in
omit h in
lemma range?_of_enters (h : layout.Enters insns j o) : j < layout.ranges.length := by
  obtain ⟨r, hr, -⟩ := h
  exact lt_of_range? hr

lemma lt_of_mem_normal (hj : j ∈ r.normal) : j < layout.ranges.length := by
  obtain ⟨jumps, hjumps, heq⟩ := h.jumps hr
  have hjump : ∀ j ∈ jumps, j < layout.ranges.length := by
    intro j hj
    obtain ⟨n, hn⟩ := mem_iff_getElem?.1 hj
    obtain ⟨l, -, o, -, henters⟩ := exists_of_forall₂ hjumps hn
    exact range?_of_enters henters
  rw [heq] at hj
  split at hj
  · next hfalls =>
      rcases mem_append.1 hj with hj | hj
      · exact hjump j hj
      · obtain rfl := mem_singleton.1 hj
        have hlt := lt_of_range? hr
        have hnot := mt (h.fallsOff hr).2
        simp only [Bool.and_eq_true, Bool.not_eq_true', Bool.not_eq_true] at hfalls hnot
        have := hnot hfalls.2
        have : k + 1 ≠ layout.ranges.length := fun heq => this ⟨hfalls.1, heq⟩
        omega
  · exact hjump j hj

omit h in
lemma graph_succ : layout.graph.succ k = r.normal ++ r.exceptional.map Prod.snd := by
  simp [Layout.graph, hr]

omit hr in
lemma succ_lt (hj : j ∈ layout.graph.succ k) : j < layout.graph.size := by
  cases hr : layout.range? k with
  | none => simp [Layout.graph, hr] at hj
  | some r =>
    rw [graph_succ hr] at hj
    rcases mem_append.1 hj with hj | hj
    · exact h.lt_of_mem_normal hr hj
    · obtain ⟨g, hg, rfl⟩ := mem_map.1 hj
      exact h.handler_lt hr g hg

lemma enters_stop (hfalls : (lastInsn insns r).fallsThrough) (hoff : r.fallsOff = false) :
    layout.Enters insns (k + 1) r.stop := by
  have hlt := lt_of_range? hr
  have hne : k + 1 ≠ layout.ranges.length := by
    intro heq
    have := (h.fallsOff hr).2 ⟨hfalls, heq⟩
    simp [hoff] at this
  obtain ⟨r', hr'⟩ : ∃ r', layout.range? (k + 1) = some r' :=
    ⟨_, getElem?_eq_getElem (by omega)⟩
  have hstart := h.next hr hr'
  refine ⟨r', hr', Nat.le_of_eq hstart, ?_, fun i hi hlt => by omega⟩
  have := (h.bounds hr').1
  omega

end

end

end Lays

variable {body : Body} {layout : Layout}

lemma build_parts (h : build method body = .ok layout) :
    body.instructions ≠ [] ∧
    collectLabels method 0 body.instructions {} = .ok layout.labels ∧
    ∃ table jumpStarts starts,
      body.handlers.mapM (resolveEntry method layout.labels) = .ok table ∧
      collectStarts method layout.labels table 0 body.instructions = .ok jumpStarts ∧
      starts = rangeStarts body.instructions
        (0 :: jumpStarts ++ table.flatMap fun p => [p.start, p.stop, p.handler]) ∧
      List.Forall₂ (fun bound r => buildRange method body.instructions layout.labels table starts
          bound.2 bound.1.1 bound.1.2 = .ok r)
        (starts.zip (starts.drop 1 ++ [body.instructions.length])).zipIdx layout.ranges ∧
      layout.handlerGuards = table.foldl (noteGuard starts) {} := by
  unfold build at h
  dsimp only at h
  split at h
  · cases h
  · next hne =>
      obtain ⟨labels, hlabels, h⟩ := ok_of_bind h
      obtain ⟨table, htable, h⟩ := ok_of_bind h
      obtain ⟨jumpStarts, hjumps, h⟩ := ok_of_bind h
      obtain ⟨ranges, hranges, h⟩ := ok_of_bind h
      cases h
      exact ⟨by simpa using hne, hlabels, table, jumpStarts, _, htable, hjumps, rfl,
        forall₂_of_mapM hranges, rfl⟩

/-- How a stream and an exception table were cut: the offsets ranges start at and the resolved
table. -/
structure Cutting (layout : Layout) (insns : List Instruction) (entries : List HandlerEntry)
    (table : List Protected) (starts : List Nat) : Prop where
  cuts : Cuts insns starts
  length : layout.ranges.length = starts.length
  labels : ∀ l o, layout.labels.get? l = some o ↔ insns[o]? = some (.label l)
  resolved : List.Forall₂ (fun (entry : HandlerEntry) p =>
    layout.labels.get? entry.start = some p.start ∧ layout.labels.get? entry.stop = some p.stop ∧
      layout.labels.get? entry.handler = some p.handler) entries table
  range : ∀ {k r}, layout.range? k = some r → starts[k]? = some r.start ∧
    r.stop = stopOf starts insns.length k ∧
      Built insns layout.labels table starts k r.start r.stop r
  inner : ∀ {k r}, layout.range? k = some r → ∀ o, r.start ≤ o → o + 1 < r.stop →
    endsRange table o (insnAt insns o) = false
  target : ∀ {i : Nat} {insn : Instruction}, insns[i]? = some insn → ∀ l ∈ insn.branchTargets,
    ∃ o, layout.labels.get? l = some o ∧ layout.Enters insns (rangeOf starts o) o
  entry : ∀ p ∈ table, ∀ o ∈ [p.start, p.stop, p.handler],
    layout.Enters insns (rangeOf starts o) o
  guards : layout.handlerGuards = table.foldl (noteGuard starts) {}

section

variable (h : build method body = .ok layout)
include h

lemma build_cutting :
    ∃ table starts, layout.Cutting body.instructions body.handlers table starts := by
  obtain ⟨hne, hlabels, table, jumpStarts, starts, htable, hjumps, hstarts, hranges, hguards⟩ :=
    build_parts h
  refine ⟨table, starts, ?_⟩
  generalize body.instructions = insns at *
  have hcuts : Cuts insns starts := hstarts ▸ cuts_rangeStarts hne (by simp)
  have hmem : ∀ o, (o ∈ jumpStarts ∨ ∃ p ∈ table, o ∈ [p.start, p.stop, p.handler]) →
      o < insns.length → backOverLabels insns o ∈ starts := by
    intro o ho hlt
    rw [hstarts, mem_rangeStarts]
    refine ⟨Nat.lt_of_le_of_lt (backOverLabels_le insns o) hlt, o, ?_, hlt, rfl⟩
    rw [cons_append, mem_cons, mem_append, mem_flatMap]
    exact .inr ho
  have hlabel : ∀ l o, layout.labels.get? l = some o ↔ insns[o]? = some (.label l) := by
    intro l o
    rw [get?_of_collectLabels hlabels l o]
    simp [Assoc.get?, Assoc.find?]
  have hlt : ∀ {l o}, layout.labels.get? l = some o → o < insns.length := fun ho =>
    (List.getElem?_eq_some_iff.1 ((hlabel _ _).1 ho)).1
  have hlength : layout.ranges.length = starts.length := by
    rw [← hranges.length_eq]
    simp only [length_zipIdx, length_zip, length_append, length_drop, length_singleton]
    omega
  -- an instruction that ends a range has a start behind it, which is not moved back over it
  have hinner : ∀ {k x : Nat}, starts[k]? = some x → ∀ o, x ≤ o →
      o + 1 < stopOf starts insns.length k → endsRange table o (insnAt insns o) = false := by
    intro k x hx o hle hlt
    by_contra hends
    rw [Bool.not_eq_false] at hends
    have hstop := hcuts.stopOf_le k
    have hget : insns[o]? = some (insnAt insns o) := by
      rw [insnAt, getElem?_eq_getElem (by omega)]
      rfl
    have hfound := (mem_of_collectStarts hjumps hget).1 (by rwa [Nat.zero_add])
    have hstart := hmem _ (.inl hfound) (by omega)
    rw [Nat.zero_add, backOverLabels, isLabel_of_endsRange hends] at hstart
    have := hcuts.stopOf_le_of_lt hx hstart (by simp; omega)
    simp only [Bool.false_eq_true, if_false] at this
    omega
  have hrange : ∀ {k r}, layout.range? k = some r → starts[k]? = some r.start ∧
      r.stop = stopOf starts insns.length k ∧
        Built insns layout.labels table starts k r.start r.stop r := by
    intro k r hr
    obtain ⟨bound, hbound, hbuild⟩ := exists_of_forall₂ hranges hr
    obtain ⟨hx, hstop, hk⟩ := getElem?_bounds hbound
    rw [hstop, hk] at hbuild
    have hb := built_of_buildRange hbuild (hcuts.lt_stopOf hx) fun o hle hlt =>
      (Bool.or_eq_false_iff.1 (hinner hx o hle hlt)).1
    have hstart_eq := hb.start_eq
    have hstop_eq := hb.stop_eq
    rw [← hstart_eq] at hx
    rw [← hstart_eq, ← hstop_eq] at hb
    exact ⟨hx, hstop_eq, hb⟩
  have henters : ∀ o, (o ∈ jumpStarts ∨ ∃ p ∈ table, o ∈ [p.start, p.stop, p.handler]) →
      o < insns.length → layout.Enters insns (rangeOf starts o) o := by
    intro o ho hlt
    obtain ⟨x, hx, hle, hstop⟩ := hcuts.rangeOf_spec hlt
    obtain ⟨r, hr⟩ : ∃ r, layout.range? (rangeOf starts o) = some r :=
      ⟨_, List.getElem?_eq_getElem (hlength ▸ (List.getElem?_eq_some_iff.1 hx).1)⟩
    obtain ⟨hx', hstop', -⟩ := hrange hr
    obtain rfl := Option.some.inj (hx.symm.trans hx')
    refine ⟨r, hr, hle, by rwa [hstop'], fun i hi hio => ?_⟩
    -- the start of the range does not lie before the first label of the run
    refine isLabel_of_backOverLabels_le ?_ hio
    by_contra hback
    have := hcuts.stopOf_le_of_lt hx (hmem o ho hlt) (by omega)
    have := backOverLabels_le insns o
    omega
  have hoffsets := (forall₂_of_mapM htable).imp fun _ _ => offsets_of_resolveEntry
  refine ⟨hcuts, hlength, hlabel, hoffsets, hrange, ?_, ?_, ?_, hguards⟩
  · intro k r hr o hle hlt
    obtain ⟨hx, hstop, -⟩ := hrange hr
    exact hinner hx o hle (hstop ▸ hlt)
  · intro i insn hi l hl
    obtain ⟨o, ho, hfound⟩ := (mem_of_collectStarts hjumps hi).2 l hl
    exact ⟨o, ho, henters o (.inl hfound) (hlt ho)⟩
  · intro p hp o ho
    refine henters o (.inr ⟨p, hp, ho⟩) ?_
    obtain ⟨n, hn⟩ := getElem?_of_mem hp
    obtain ⟨entry, -, hstart, hstop, hhandler⟩ := exists_of_forall₂ hoffsets hn
    simp only [mem_cons, not_mem_nil, or_false] at ho
    rcases ho with rfl | rfl | rfl
    · exact hlt hstart
    · exact hlt hstop
    · exact hlt hhandler

lemma build_spec : layout.Lays body.instructions ∧ layout.Handles body := by
  obtain ⟨table, starts, hc⟩ := build_cutting h
  refine ⟨⟨hc.labels, ?_, ?_, ?_, ?_, ?_, ?_, ?_, ?_⟩, ?_⟩
  · have hr : layout.range? 0 = some _ :=
      List.getElem?_eq_getElem (hc.length ▸ (List.getElem?_eq_some_iff.1 hc.cuts.first).1)
    exact ⟨_, hr, Option.some.inj ((hc.range hr).1.symm.trans hc.cuts.first)⟩
  · intro k r hr
    obtain ⟨hx, hstop, -⟩ := hc.range hr
    rw [hstop]
    exact ⟨hc.cuts.lt_stopOf hx, hc.cuts.stopOf_le k⟩
  · intro k r r' hr hr'
    rw [(hc.range hr).2.1, stopOf, (hc.range hr').1]
    rfl
  · intro k r hr o hle hlt
    exact (Bool.or_eq_false_iff.1 (hc.inner hr o hle hlt)).1
  · intro k r hr
    obtain ⟨hx, hstop, hb⟩ := hc.range hr
    obtain ⟨jumps, hjumpsTo, hnormal⟩ := hb.edges
    refine ⟨jumps, ?_, ?_⟩
    · have hget : body.instructions[r.stop - 1]? = some (insnAt body.instructions (r.stop - 1)) := by
        have := hc.cuts.stopOf_le k
        have := hc.cuts.lt_stopOf hx
        rw [insnAt, getElem?_eq_getElem (by omega)]
        rfl
      refine forall₂_iff_get.2 ⟨hjumpsTo.length_eq, fun i hi hi' => ?_⟩
      obtain ⟨o, ho, hj⟩ := hjumpsTo.get hi hi'
      obtain ⟨o', ho', henters⟩ := hc.target hget _ (get_mem _ ⟨i, hi⟩)
      obtain rfl := Option.some.inj (ho.symm.trans ho')
      exact ⟨o, ho, hj ▸ henters⟩
    · rw [hnormal, hb.fallsOff_eq, lastInsn]
      cases (insnAt body.instructions (r.stop - 1)).fallsThrough <;> simp
  · intro k r hr
    rw [(hc.range hr).2.2.fallsOff_eq, hc.length, lastInsn]
    simp
  · intro k r hr g hg
    obtain ⟨entry, hentry, heq⟩ := (hc.range hr).2.2.handlers g hg
    rw [isHandler, hc.guards]
    exact contains_foldl_noteGuard.2 (.inr ⟨entry, hentry, heq⟩)
  · intro k r hr g hg
    obtain ⟨entry, hentry, heq⟩ := (hc.range hr).2.2.handlers g hg
    rw [heq, hc.length]
    exact hc.cuts.rangeOf_lt entry.handler
  · intro k hk
    rw [isHandler, hc.guards, contains_foldl_noteGuard] at hk
    obtain ⟨p, hp, rfl⟩ := hk.resolve_left Bool.false_ne_true
    obtain ⟨n, hn⟩ := getElem?_of_mem hp
    obtain ⟨entry, hentry, -, -, ho⟩ := exists_of_forall₂ hc.resolved hn
    exact ⟨entry, mem_of_getElem? hentry, p.handler, ho, hc.entry p hp _ (by simp)⟩

lemma lays_of_build : layout.Lays body.instructions :=
  (build_spec h).1

end

end Layout

end Lift

end Dissolve
