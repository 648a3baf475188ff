import PathContainment.Pattern.Bucket
import PathContainment.Proofs.Element.NormalForm
import PathContainment.Proofs.Sequence.Meets

/-!
# Buckets of normal forms

Where the tree of patterns looks for an element that contains an element of a candidate: in the buckets that belong to
the normal form of the candidate, and for the normal form itself (`mem_candidateBuckets_or_beq`). The two places
do not overlap, and what is found by looking up the normal form contains the candidate. So every element whose verdict
is not `fails` is found, and it is found once (`found_once`).
-/

namespace PathContainment.Element

variable {k c : Element} {B : Bucket}

theorem bucket_congr {a b : Element} (h : (a == b) = true) : a.bucket = b.bucket := by
  have hk := kind_congr h
  cases a <;> cases b <;> first | rfl | cases hk

theorem candidateBuckets_congr {a b : Element} (h : (a == b) = true) : a.candidateBuckets = b.candidateBuckets := by
  cases a with
  | slice s =>
    cases b with
    | slice t => rw [candidateBuckets, candidateBuckets, Slice.count_congr h, Slice.range_congr h]
    | _ => cases h
  | descent x =>
    cases b with
    | descent y => rfl
    | _ => cases h
  | _ =>
    obtain rfl := of_decide_eq_true h
    rfl

theorem isDescent_eq_false_of_bucket (h : k.bucket = some B) : k.isDescent = false := by
  cases k with
  | descent inner => cases h
  | _ => rfl

theorem isDescent_of_bucket_eq_none (h : k.bucket = none) : k.isDescent = true := by
  cases k with
  | descent inner => rfl
  | _ => cases h

/-- The buckets to search are listed in the order of the buckets. -/
theorem flatMap_candidateBuckets {α : Type u} (n : Element) (f : Bucket → List α) :
    n.candidateBuckets.flatMap f =
      (if Bucket.exact ∈ n.candidateBuckets then f .exact else []) ++
        (if Bucket.property ∈ n.candidateBuckets then f .property else []) ++
          if Bucket.index ∈ n.candidateBuckets then f .index else [] := by
  cases n with
  | slice s =>
    rw [candidateBuckets]
    split <;> simp
  | _ => simp [candidateBuckets]

theorem nodup_candidateBuckets (n : Element) : n.candidateBuckets.Nodup := by
  cases n with
  | slice s =>
    rw [candidateBuckets]
    split <;> decide
  | _ => simp [candidateBuckets]

theorem exact_not_mem_candidateBuckets (h : k.bucket = some .exact) : Bucket.exact ∉ k.candidateBuckets := by
  cases k with
  | root => exact List.not_mem_nil
  | property name => simp [candidateBuckets]
  | index i => simp [candidateBuckets]
  | _ => cases h

/-! ### Elements that are searched for -/

private theorem index_mem_candidateBuckets_slice (s : Slice) : Bucket.index ∈ (slice s).candidateBuckets := by
  rw [candidateBuckets]
  split <;> simp

private theorem index_mem_candidateBuckets
    (hc : c.kind ∈ [Kind.index, .anyIndex, .indexes, .slice, .expression, .filter]) :
    Bucket.index ∈ c.normalForm.candidateBuckets := by
  cases c with
  | index i => exact List.mem_singleton.2 rfl
  | anyIndex => exact List.mem_singleton.2 rfl
  | indexes is =>
    obtain ⟨i, -, hn⟩ | ⟨s, -, hn⟩ | hn := normalForm_indexes_cases is
    · rw [hn]; exact List.mem_singleton.2 rfl
    · rw [hn]; exact index_mem_candidateBuckets_slice s
    · rw [hn]; exact List.mem_singleton.2 rfl
  | slice s =>
    rcases normalForm_slice_cases s with ⟨r, -, -, hn⟩ | ⟨r, -, -, hn⟩ | ⟨r, -, -, hn⟩ | ⟨t, hn, -⟩
    · rw [hn]; exact index_mem_candidateBuckets_slice _
    · rw [hn]; exact List.mem_singleton.2 rfl
    · rw [hn]; exact List.mem_singleton.2 rfl
    · rw [hn]; exact index_mem_candidateBuckets_slice t
  | expression text => simp [normalForm, candidateBuckets]
  | filter text => simp [normalForm, candidateBuckets]
  | _ => simp [kind] at hc

private theorem property_mem_candidateBuckets (hc : c.kind ∈ [Kind.property, .anyProperty, .properties, .filter]) :
    Bucket.property ∈ c.normalForm.candidateBuckets := by
  cases c with
  | property name => exact List.mem_singleton.2 rfl
  | anyProperty => exact List.mem_singleton.2 rfl
  | properties names =>
    obtain ⟨name, -, hn⟩ | hn := normalForm_properties_cases names
    · rw [hn]; exact List.mem_singleton.2 rfl
    · rw [hn]; exact List.mem_singleton.2 rfl
  | filter text => simp [normalForm, candidateBuckets]
  | _ => simp [kind] at hc

private theorem kind_of_contains_index (hk : k.bucket = some .index) (h : k.contains c ≠ .fails) :
    c.kind ∈ [Kind.index, .anyIndex, .indexes, .slice, .expression, .filter] := by
  cases c with
  | index i => simp [kind]
  | anyIndex => simp [kind]
  | indexes is => simp [kind]
  | slice s => simp [kind]
  | expression text => simp [kind]
  | filter text => simp [kind]
  | _ => cases k <;> first | cases hk; done | exact absurd rfl h

private theorem kind_of_contains_property (hk : k.bucket = some .property) (h : k.contains c ≠ .fails) :
    c.kind ∈ [Kind.property, .anyProperty, .properties, .filter] := by
  cases c with
  | property name => simp [kind]
  | anyProperty => simp [kind]
  | properties names => simp [kind]
  | filter text => simp [kind]
  | _ => cases k <;> first | cases hk; done | exact absurd rfl h

/-! ### Elements that are looked up -/

private theorem candidateBuckets_of_range_eq_none {s : Slice} (hs : s.range = none) :
    Bucket.exact ∈ (slice s).normalForm.candidateBuckets := by
  rcases normalForm_slice_cases s with ⟨r, hr, -⟩ | ⟨r, hr, -⟩ | ⟨r, hr, -⟩ | ⟨t, hn, ht⟩
  · rw [hs] at hr; cases hr
  · rw [hs] at hr; cases hr
  · rw [hs] at hr; cases hr
  · have htr : t.range = none := (Slice.range_congr ht).trans hs
    rw [hn]
    simp [candidateBuckets, htr]

/-- An index contains a slice that covers nothing, the slice of this index and, possibly, a slice without a known
range. -/
private theorem index_contains_slice {i : Nat} {s : Slice} (h : (index i).contains (slice s) ≠ .fails) :
    Bucket.exact ∈ (slice s).normalForm.candidateBuckets ∨ (slice s).normalForm = index i := by
  cases hr : s.range with
  | none => exact .inl (candidateBuckets_of_range_eq_none hr)
  | some r =>
    have hd : Verdict.Decides (s.allIndexes (· = i)) (∀ j, r.Mem j → decide (j = i) = true) := by
      refine Slice.allIndexes_decides hr (m := i) fun j hj => ?_
      rw [of_decide_eq_true hj]
    have hall : ∀ j, r.Mem j → j = i := by
      by_contra hn
      refine h (hd.2.2 fun hj => hn fun j hmem => ?_)
      exact of_decide_eq_true (hj j hmem)
    -- all covered indexes are `i`, so that there is none or one
    by_cases hz : r.count = some 0
    · rw [normalForm_of_count_eq_zero hr hz]
      exact .inl (by decide)
    · have hone : r.count = some 1 := by
        refine IndexRange.count_eq_one_iff.2 ⟨i, fun j => ⟨hall j, fun hj => ?_⟩⟩
        rw [hj]
        cases hn : r.count with
        | none =>
          obtain ⟨j, hlt, hj⟩ := IndexRange.exists_mem_gt hn i
          have := hall j hj
          omega
        | some n =>
          have hn0 : n ≠ 0 := fun h0 => hz (h0 ▸ hn)
          obtain ⟨j, hj, -⟩ := IndexRange.exists_mem_of_lt_count hn (Nat.pos_of_ne_zero hn0)
          rwa [← hall j hj]
      right
      rw [normalForm_of_count_eq_one hr hone, hall _ ((IndexRange.mem_iff_of_count_eq_one hone).2 rfl)]

private theorem exact_contains (hk : k.bucket = some .exact) (h : k.contains c ≠ .fails) :
    Bucket.exact ∈ c.normalForm.candidateBuckets ∨ (k == c.normalForm) = true := by
  cases k with
  | root =>
    cases c with
    | root => exact .inr rfl
    | _ => exact absurd rfl h
  | property name =>
    cases c with
    | property other =>
      rw [contains, Ne, Verdict.ofBool_eq_fails, Bool.not_eq_false, decide_eq_true_eq] at h
      right
      rw [h]
      exact BEq.rfl
    | properties names =>
      rw [contains, Ne, Verdict.ofBool_eq_fails, Bool.not_eq_false, decide_eq_true_eq] at h
      right
      rw [normalForm, h]
      exact BEq.rfl
    | _ => exact absurd rfl h
  | index i =>
    cases c with
    | index j =>
      rw [contains, Ne, Verdict.ofBool_eq_fails, Bool.not_eq_false, decide_eq_true_eq] at h
      right
      rw [h]
      exact BEq.rfl
    | indexes js =>
      rw [contains, Ne, Verdict.ofBool_eq_fails, Bool.not_eq_false, decide_eq_true_eq] at h
      right
      rw [normalForm, h]
      exact BEq.rfl
    | slice s =>
      refine (index_contains_slice h).imp_right fun hs => ?_
      rw [hs]
      exact BEq.rfl
    | expression text => exact .inl (by simp [normalForm, candidateBuckets])
    | _ => exact absurd rfl h
  | _ => cases hk

/-- An element that contains a candidate is found in a bucket that is searched, or by looking up the normal form. -/
theorem mem_candidateBuckets_or_beq (hk : k.bucket = some B) (h : k.contains c ≠ .fails) :
    B ∈ c.normalForm.candidateBuckets ∨ B = .exact ∧ (k == c.normalForm) = true := by
  cases B with
  | exact => exact (exact_contains hk h).imp_right fun heq => ⟨rfl, heq⟩
  | property => exact .inl (property_mem_candidateBuckets (kind_of_contains_property hk h))
  | index => exact .inl (index_mem_candidateBuckets (kind_of_contains_index hk h))

private theorem eq_of_beq_of_exact {a b : Element} (h : (a == b) = true) (ha : a.bucket = some .exact) : a = b := by
  have hc := beq_iff.1 h
  cases a with
  | root => cases b <;> simp_all [canonical]
  | property name => cases b <;> simp_all [canonical]
  | index i => cases b <;> simp_all [canonical]
  | _ => cases ha

/-- What is found by looking up the normal form contains the candidate. -/
theorem contains_of_beq_normalForm (hk : k.bucket = some .exact) (h : (k == c.normalForm) = true) :
    k.contains c = .holds := by
  have hkn := eq_of_beq_of_exact h hk
  cases c with
  | root => rw [hkn]; rfl
  | property name => simp [hkn, normalForm, contains]
  | index i => simp [hkn, normalForm, contains]
  | properties names =>
    obtain ⟨name, hname, hn⟩ | hn := normalForm_properties_cases names
    · simp [hkn, hn, contains, hname]
    · rw [hkn, hn] at hk; cases hk
  | indexes is =>
    obtain ⟨i, hi, hn⟩ | ⟨s, -, hn⟩ | hn := normalForm_indexes_cases is
    · simp [hkn, hn, contains, hi]
    · rw [hkn, hn] at hk; cases hk
    · rw [hkn, hn] at hk; cases hk
  | slice s =>
    rcases normalForm_slice_cases s with ⟨r, -, -, hn⟩ | ⟨r, hr, h1, hn⟩ | ⟨r, -, -, hn⟩ | ⟨t, hn, -⟩
    · rw [hkn, hn] at hk; cases hk
    · simp [hkn, hn, contains, Slice.allIndexes, hr, h1, IndexRange.allFrom]
    · rw [hkn, hn] at hk; cases hk
    · rw [hkn, hn] at hk; cases hk
  | _ =>
    rw [hkn] at hk
    cases hk

/-! ### Every element is found once -/

/-- The element lies in a bucket that is searched for a candidate with the normal form `n`. -/
def IsSearched (k n : Element) : Prop := ∃ B ∈ n.candidateBuckets, k.bucket = some B

/-- The element is what looking up the normal form `n` of a candidate finds. -/
def IsLookedUp (k n : Element) : Prop := k.bucket = some .exact ∧ (k == n) = true

theorem not_isSearched_of_isLookedUp {n : Element} (h : k.IsLookedUp n) : ¬k.IsSearched n := by
  rintro ⟨B, hB, hk⟩
  obtain rfl : Bucket.exact = B := Option.some.inj (h.1.symm.trans hk)
  exact exact_not_mem_candidateBuckets ((bucket_congr h.2).symm.trans h.1) hB

/-- An element without recursive descent whose verdict on a candidate is not `fails` is found among the edges of a node,
in a bucket that is searched or by looking up the normal form. It is not found in both ways, and no bucket is searched
twice. What is looked up contains the candidate, and nothing contains a recursive descent. -/
theorem found_once (k c : Element) (hk : k.isDescent = false) :
    (k.contains c ≠ .fails → k.IsSearched c.normalForm ∨ k.IsLookedUp c.normalForm) ∧
    ¬(k.IsSearched c.normalForm ∧ k.IsLookedUp c.normalForm) ∧ c.normalForm.candidateBuckets.Nodup ∧
    (k.IsLookedUp c.normalForm → k.contains c = .holds) ∧
    (c.isDescent = true → k.contains c = .fails) := by
  refine ⟨fun h => ?_, fun h => not_isSearched_of_isLookedUp h.2 h.1, nodup_candidateBuckets _,
    fun h => contains_of_beq_normalForm h.1 h.2, contains_eq_fails_of_isDescent hk⟩
  cases hB : k.bucket with
  | none =>
    rw [isDescent_of_bucket_eq_none hB] at hk
    cases hk
  | some B =>
    rcases mem_candidateBuckets_or_beq hB h with hmem | ⟨rfl, heq⟩
    · exact .inl ⟨B, hmem, hB⟩
    · exact .inr ⟨hB, heq⟩

/-- The index `5` contains the slice `[5:10:7]`, whose normal form it is, and it is not searched for. -/
theorem found_once_of_slice :
    let s : Slice := { start := some 5, stop := some 10, step := 7, step_ne_zero := by decide }
    (index 5).contains (slice s) = .holds ∧ ¬(index 5).IsSearched (slice s).normalForm := by
  intro s
  obtain ⟨-, hnot, -, hlooked, -⟩ := found_once (index 5) (slice s) rfl
  have h : (index 5).IsLookedUp (slice s).normalForm := ⟨rfl, by decide⟩
  exact ⟨hlooked h, fun hs => hnot ⟨hs, h⟩⟩

end PathContainment.Element
