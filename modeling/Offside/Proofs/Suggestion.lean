/-
Suggestions are the best candidates.

No two candidates have the same rank (`Before`), so there is one way to sort them, whatever sort is
used.
-/
import Offside.Proofs.Keyword
import Offside.Suggestion

set_option autoImplicit false

open List

namespace Offside

theorem Keyword.mem_spellings {k : Text} :
    k ∈ spellings ↔ ∃ e ∈ table, (!e.2.category.isLineMarker) ∧ e.1 = k := by
  simp only [spellings, mem_mergeSort, mem_map, mem_filter, and_assoc]

theorem Keyword.nodup_spellings : spellings.Nodup := by
  rw [spellings, (mergeSort_perm _ _).nodup_iff]
  exact nodup_table.sublist (filter_sublist.map Prod.fst)

namespace Suggestion

variable {near : Nearness} {word a b k : Text}

/-! ## Candidates -/

/-- A keyword is a candidate for another word that is close to it or abbreviates it. -/
def IsCandidate (near : Nearness) (word k : Text) : Prop := k ∈ Keyword.spellings ∧ k.isWord ∧ k ≠ word ∧
  (near.distance word k ≤ maxDistance ∨ (near.rank? word k).isSome)

/-- A translation suggests keywords that are at most two edits away from the word, and those that it
abbreviates. -/
theorem isCandidate_default_iff : IsCandidate {} word k ↔ k ∈ Keyword.spellings ∧ k.isWord = true ∧ k ≠ word ∧
    (Text.distance word k ≤ maxDistance ∨ abbreviates word k = true) := by
  cases h : abbreviates word k <;> simp [IsCandidate, h]

def score (near : Nearness) (word k : Text) : Nat :=
  if near.distance word k ≤ maxDistance then near.distance word k else (near.rank? word k).getD 0 + maxDistance

/-- A keyword has a score if it is near or is abbreviated. -/
theorem score?_eq (near : Nearness) (word k : Text) : score? near word k =
    if near.distance word k ≤ maxDistance ∨ (near.rank? word k).isSome then some (score near word k) else none := by
  rw [score?, score]
  by_cases hclose : near.distance word k ≤ maxDistance
  · rw [if_pos hclose, if_pos (.inl hclose), if_pos hclose]
  · rw [if_neg hclose, if_neg hclose, if_congr (or_iff_right hclose) rfl rfl]
    cases near.rank? word k <;> rfl

/-- The candidates have their scores, and are listed once. -/
theorem candidates_eq (near : Nearness) (word : Text) :
    ∃ ks : List Text, candidates near word = ks.map (fun k => (score near word k, k)) ∧
    ks.Nodup ∧ ∀ k, k ∈ ks ↔ IsCandidate near word k := by
  refine ⟨Keyword.spellings.filter fun k => k.isWord && k != word &&
    decide (near.distance word k ≤ maxDistance ∨ (near.rank? word k).isSome), ?_, Keyword.nodup_spellings.filter _, ?_⟩
  · rw [candidates, ← filterMap_eq_map, filterMap_filter, filterMap_filter]
    refine filterMap_congr fun k _ => ?_
    rw [score?_eq]
    by_cases hnear : near.distance word k ≤ maxDistance ∨ (near.rank? word k).isSome
    · simp [hnear]
    · simp [hnear]
  · intro k
    simp [IsCandidate, and_assoc]

/-! ## Their order -/

/-- A candidate comes before another one by its score or, with the same score, by its spelling. -/
def Before (near : Nearness) (word a b : Text) : Prop :=
  score near word a < score near word b ∨ score near word a = score near word b ∧ a < b

instance (near : Nearness) (word a b : Text) : Decidable (Before near word a b) :=
  inferInstanceAs (Decidable (_ ∨ _ ∧ _))

/-- Not to be before another is to be behind it or the same. -/
theorem not_before_iff : ¬ Before near word b a ↔
    score near word a < score near word b ∨ score near word a = score near word b ∧ a ≤ b := by
  rw [Before, not_or, not_and, List.not_lt]
  grind

theorem le_iff : le (score near word a, a) (score near word b, b) ↔ ¬ Before near word b a := by
  rw [not_before_iff, le]
  dsimp only
  split
  · next hsame => simp [hsame, Text.le]
  · next hdiffer => simp [hdiffer]; omega

theorem not_before_trans {c : Text} (hab : ¬ Before near word b a) (hbc : ¬ Before near word c b) :
    ¬ Before near word c a := by
  rw [not_before_iff] at hab hbc ⊢
  rcases hab with hab | ⟨hab, htext⟩
  · omega
  · rcases hbc with hbc | ⟨hbc, htext'⟩
    · omega
    · exact .inr ⟨hab.trans hbc, List.le_trans htext htext'⟩

theorem not_before_total (near : Nearness) (word a b : Text) : ¬ Before near word b a ∨ ¬ Before near word a b := by
  rw [not_before_iff, not_before_iff]
  rcases Nat.lt_trichotomy (score near word a) (score near word b) with h | h | h
  · exact .inl (.inl h)
  · exact (List.le_total a b).imp (fun htext => .inr ⟨h, htext⟩) fun htext => .inr ⟨h.symm, htext⟩
  · exact .inr (.inl h)

/-- No two candidates have one rank. -/
theorem eq_of_not_before (hab : ¬ Before near word a b) (hba : ¬ Before near word b a) : a = b := by
  rw [not_before_iff] at hab hba
  have hscore : score near word a = score near word b := by omega
  exact List.le_antisymm (hba.resolve_left (by omega)).2 (hab.resolve_left (by omega)).2

/-! ## The best of them -/

/-- All candidates, the best first. -/
def ranked (near : Nearness) (word : Text) : List Text := ((candidates near word).mergeSort le).map Prod.snd

/-- The ranked list has the candidates, once each and in order. -/
theorem ranked_spec (near : Nearness) (word : Text) :
    (ranked near word).Nodup ∧ (∀ k, k ∈ ranked near word ↔ IsCandidate near word k) ∧
    (ranked near word).Pairwise fun a b => ¬ Before near word b a := by
  obtain ⟨ks, hks, hnodup, hmem⟩ := candidates_eq near word
  have hranked : ranked near word = ks.mergeSort fun a b => le (score near word a, a) (score near word b, b) := by
    rw [ranked, hks, ← map_mergeSort (r := fun a b => le (score near word a, a) (score near word b, b))
        fun _ _ _ _ => rfl,
      map_map]
    exact map_id _
  rw [hranked]
  refine ⟨(mergeSort_perm _ _).nodup_iff.mpr hnodup, fun k => mem_mergeSort.trans (hmem k), ?_⟩
  simp only [← le_iff]
  refine pairwise_mergeSort (fun a b c => ?_) (fun a b => ?_) ks
  · simp only [le_iff]
    exact not_before_trans
  · simp only [Bool.or_eq_true, le_iff]
    exact not_before_total near word a b

/-- Candidates in any order that no comparison contradicts are in the one order. -/
theorem eq_ranked {listed sorted : List Text} (hnodup : listed.Nodup)
    (hlisted : ∀ k, k ∈ listed ↔ IsCandidate near word k)
    (hperm : sorted.Perm listed) (hsorted : sorted.Pairwise fun a b => ¬ Before near word b a) :
    sorted = ranked near word := by
  obtain ⟨hranked, hmem, hpairwise⟩ := ranked_spec near word
  refine List.Perm.eq_of_pairwise (fun a b _ _ hab hba => eq_of_not_before hba hab) hsorted hpairwise (hperm.trans ?_)
  exact (perm_ext_iff_of_nodup hnodup hranked).mpr fun k => (hlisted k).trans (hmem k).symm

theorem pairwise_ranked (near : Nearness) (word : Text) : (ranked near word).Pairwise (Before near word) := by
  obtain ⟨hnodup, -, hpairwise⟩ := ranked_spec near word
  exact (hnodup.and hpairwise).imp fun hab => by_contra fun hno => hab.1 (eq_of_not_before hno hab.2)

/-- Whatever counts as near, in whatever order the candidates for a word are listed, and however
they are sorted, the suggestions are the first three. They are distinct, the best first, and no
candidate that is left out is better than one of them. A word that is too short has none. -/
theorem suggest_best (near : Nearness) (word : Text) :
    (∀ listed sorted : List Text, listed.Nodup → (∀ k, k ∈ listed ↔ IsCandidate near word k) → sorted.Perm listed →
      (sorted.Pairwise fun a b => ¬ Before near word b a) →
        suggest word near = if word.length < minLength then [] else sorted.take maxCount) ∧
    (suggest word near).length ≤ maxCount ∧ (suggest word near).Nodup ∧
    (∀ k ∈ suggest word near, IsCandidate near word k) ∧ (suggest word near).Pairwise (Before near word) ∧
    ∀ k, IsCandidate near word k → k ∉ suggest word near →
      ∀ s ∈ suggest word near, Before near word s k ∧ ¬ Before near word k s := by
  have hsuggest : suggest word near = if word.length < minLength then [] else (ranked near word).take maxCount := by
    rw [suggest, ranked, map_take]
  obtain ⟨hnodup, hmem, hpairwise⟩ := ranked_spec near word
  have hstrict := pairwise_ranked near word
  refine ⟨fun listed sorted hlisted hall hperm hsorted => ?_, ?_⟩
  · rw [hsuggest, eq_ranked hlisted hall hperm hsorted]
  rw [hsuggest]
  split
  · simp
  have hsub := take_sublist maxCount (ranked near word)
  refine ⟨length_take_le .., hnodup.sublist hsub, fun k hk => (hmem k).mp (hsub.subset hk), hstrict.sublist hsub, ?_⟩
  intro k hk hleft s hs
  -- What is left out is behind the third, and so behind each of the three.
  rw [← hmem, ← take_append_drop maxCount (ranked near word), mem_append] at hk
  rw [← take_append_drop maxCount (ranked near word), pairwise_append] at hstrict hpairwise
  have hk := hk.resolve_left hleft
  exact ⟨hstrict.2.2 s hs k hk, hpairwise.2.2 s hs k hk⟩

/-- Five candidates, of which all but the first have the same score. -/
theorem suggest_best_cas : suggest ("cas" : String) = ["case", "char", "class"] := by
  have hlisted : (Keyword.table.filter fun e : Text × Keyword => !e.2.category.isLineMarker && (e.1.isWord &&
      (e.1 != ("cas" : String) && decide (Text.distance ("cas" : String) e.1 ≤ maxDistance ∨
        abbreviates ("cas" : String) e.1 = true)))).map Prod.fst =
      (["is", "case", "pass", "char", "class"] : List Text) := by
    decide +kernel
  have hcandidates : ∀ k, k ∈ (["is", "case", "pass", "char", "class"] : List Text) ↔
      IsCandidate {} ("cas" : String) k := by
    intro k
    rw [← hlisted, isCandidate_default_iff, Keyword.mem_spellings, mem_map]
    simp only [mem_filter, Bool.and_eq_true, bne_iff_ne, decide_eq_true_eq]
    constructor
    · rintro ⟨e, ⟨he, hline, hk⟩, rfl⟩
      exact ⟨⟨e, he, hline, rfl⟩, hk⟩
    · rintro ⟨⟨e, he, hline, rfl⟩, hk⟩
      exact ⟨e, ⟨he, hline, hk⟩, rfl⟩
  have hbest := (suggest_best {} ("cas" : String)).1 _ ["case", "char", "class", "is", "pass"] (by decide) hcandidates
    (by decide) (by decide +kernel)
  exact hbest.trans (by decide)

end Suggestion

end Offside
