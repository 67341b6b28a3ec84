import Mathlib

/-! Texts of UTF-16 code units, cut between code points. -/
namespace Orm.Logic.Utf16

/-- A high surrogate. -/
def high (u : UInt16) : Bool := 0xd800 ≤ u && u ≤ 0xdbff

/-- A low surrogate. -/
def low (u : UInt16) : Bool := 0xdc00 ≤ u && u ≤ 0xdfff

/-- The code point of a surrogate pair. -/
def pair (u v : UInt16) : Nat := (u.toNat - 0xd800) * 0x400 + (v.toNat - 0xdc00) + 0x10000

/-- The code points of a text, each with its units; a surrogate without its half stands alone. -/
def points : List UInt16 → List (List UInt16)
  | [] => []
  | [u] => [[u]]
  | u :: v :: rest =>
    if high u && low v then [u, v] :: points rest else [u] :: points (v :: rest)

/-- The units of a code point. -/
def ofPoint (n : Nat) : List UInt16 :=
  if 0xffff < n then
    [UInt16.ofNat (0xd800 + (n - 0x10000) / 0x400), UInt16.ofNat (0xdc00 + (n - 0x10000) % 0x400)]
  else [UInt16.ofNat n]

/-- The border of two texts parts no surrogate pair. -/
def Cut (a b : List UInt16) : Prop :=
  ∀ u ∈ a.getLast?, ∀ v ∈ b.head?, ¬ (high u = true ∧ low v = true)

section Points
variable {a b c : List UInt16} {u v : UInt16}

theorem low_not_high (h : low u = true) : high u = false := by
  simp only [low, Bool.and_eq_true, decide_eq_true_eq] at h
  simp only [high, Bool.and_eq_false_iff, decide_eq_false_iff_not]
  right
  intro hle
  have h1 : (0xdc00 : UInt16).toNat ≤ u.toNat := h.1
  have h2 : u.toNat ≤ (0xdbff : UInt16).toNat := hle
  simp at h1 h2
  omega

theorem Cut.nil_left (b : List UInt16) : Cut [] b := by
  intro u hu
  simp at hu

theorem Cut.nil_right (a : List UInt16) : Cut a [] := by
  intro u _ v hv
  simp at hv

theorem Cut.of_last (h : ∀ u ∈ a.getLast?, high u = false) (b : List UInt16) : Cut a b := by
  intro u hu v _ hpair
  rw [h u hu] at hpair
  exact Bool.noConfusion hpair.1

theorem Cut.of_head (a : List UInt16) (h : ∀ v ∈ b.head?, low v = false) : Cut a b := by
  intro u _ v hv hpair
  rw [h v hv] at hpair
  exact Bool.noConfusion hpair.2

theorem Cut.left (h : Cut a (b ++ c)) (hb : b ≠ []) : Cut a b := by
  intro u hu v hv
  obtain ⟨w, rest, rfl⟩ := List.exists_cons_of_ne_nil hb
  exact h u hu v hv

theorem Cut.append_left (h : Cut b c) (hb : b ≠ []) (a : List UInt16) : Cut (a ++ b) c := by
  intro u hu
  rw [List.getLast?_append_of_ne_nil a hb] at hu
  exact h u hu

theorem Cut.append (hab : Cut a (b ++ c)) (hbc : Cut b c) : Cut (a ++ b) c := by
  rcases List.eq_nil_or_concat b with rfl | ⟨l, x, rfl⟩
  · simpa using hab
  · exact hbc.append_left (by simp) a

theorem Cut.of_append_left (h : Cut (a ++ b) c) (hb : b ≠ []) : Cut b c := by
  intro u hu
  exact h u (by rwa [List.getLast?_append_of_ne_nil a hb])

/-- The code points of two texts that are put together at a border between code points. -/
theorem points_append (h : Cut a b) : points (a ++ b) = points a ++ points b := by
  induction a using points.induct with
  | case1 => rfl
  | case2 u =>
    cases b with
    | nil => rfl
    | cons v b =>
      have hpair := h u rfl v rfl
      have hne : ¬ (high u && low v) = true := by simpa using hpair
      rw [List.singleton_append]
      simp only [points, if_neg hne]
      rfl
  | case3 u v rest hpair ih =>
    rw [List.cons_append, List.cons_append, points, points, if_pos hpair, if_pos hpair,
      List.cons_append]
    congr 1
    cases hrest : rest with
    | nil => rfl
    | cons w ws =>
      rw [← hrest]
      exact ih (Cut.of_append_left (a := [u, v]) h (by simp [hrest]))
  | case4 u v rest hpair ih =>
    rw [List.cons_append, List.cons_append, points, points, if_neg hpair, if_neg hpair,
      List.cons_append]
    congr 1
    exact ih (Cut.of_append_left (a := [u]) h (by simp))

theorem flatten_points (a : List UInt16) : (points a).flatten = a := by
  induction a using points.induct with
  | case1 => rfl
  | case2 u => rfl
  | case3 u v rest hpair ih => simp [points, hpair, ih]
  | case4 u v rest hpair ih => simp [points, hpair, ih]

theorem points_ne_nil (h : a ≠ []) : points a ≠ [] := by
  intro hnil
  have hflatten := flatten_points a
  rw [hnil] at hflatten
  exact h hflatten.symm

theorem points_cons_of_plain (hu : high u = false) (b : List UInt16) :
    points (u :: b) = [u] :: points b := by
  have hcut : Cut [u] b := Cut.of_last (by simpa using hu) b
  exact points_append hcut

/-- The code points of a text that is not empty: the first one starts with the first unit, and the
others are those of a rest. -/
theorem points_cons (u : UInt16) (b : List UInt16) :
    ∃ x rest, points (u :: b) = x :: points rest ∧ x.head? = some u := by
  cases b with
  | nil => exact ⟨[u], [], rfl, rfl⟩
  | cons v b =>
    rw [points]
    split
    · exact ⟨[u, v], b, rfl, rfl⟩
    · exact ⟨[u], v :: b, rfl, rfl⟩

/-- A code point may be replaced by one plain unit. -/
theorem points_set (h : Cut a (u :: b)) {w : UInt16} (hhigh : high w = false)
    (hlow : low w = false) :
    points ((points (a ++ u :: b)).set (points a).length [w]).flatten =
      (points (a ++ u :: b)).set (points a).length [w] := by
  obtain ⟨x, rest, hx, -⟩ := points_cons u b
  have hset : (points (a ++ u :: b)).set (points a).length [w] = points a ++ [w] :: points rest := by
    rw [points_append h, hx, List.set_append_right _ _ le_rfl, Nat.sub_self, List.set_cons_zero]
  rw [hset, List.flatten_append, List.flatten_cons, flatten_points, flatten_points,
    List.singleton_append, points_append (Cut.of_head _ (by simpa using hlow)),
    points_cons_of_plain hhigh]

end Points

/-- The number of code points before an index. -/
def count (text : List UInt16) (k : Nat) : Nat := (points (text.take k)).length

/-- An index between two code points of a text. -/
def CutAt (text : List UInt16) (k : Nat) : Prop := Cut (text.take k) (text.drop k)

section Counts
variable {text : List UInt16} {j k : Nat}

theorem count_add (hj : CutAt text j) (hjk : j < k) (hk : k ≤ text.length) :
    count text k = count text j + (points ((text.drop j).take (k - j))).length := by
  have htake : text.take k = text.take j ++ (text.drop j).take (k - j) := by
    rw [← List.take_add, Nat.add_sub_cancel' hjk.le]
  have hne : (text.drop j).take (k - j) ≠ [] := by
    rw [← List.length_pos_iff, List.length_take, List.length_drop]
    omega
  have hcut : Cut (text.take j) ((text.drop j).take (k - j)) := by
    apply Cut.left (c := (text.drop j).drop (k - j)) _ hne
    rwa [List.take_append_drop]
  rw [count, htake, points_append hcut, List.length_append, count]

theorem count_lt (hj : CutAt text j) (hjk : j < k) (hk : k ≤ text.length) :
    count text j < count text k := by
  have hne : (text.drop j).take (k - j) ≠ [] := by
    rw [← List.length_pos_iff, List.length_take, List.length_drop]
    omega
  have hpos := List.length_pos_iff.mpr (points_ne_nil hne)
  have hadd := count_add hj hjk hk
  omega

theorem count_le (hj : CutAt text j) (hjk : j ≤ k) (hk : k ≤ text.length) :
    count text j ≤ count text k := by
  rcases Nat.lt_or_eq_of_le hjk with hlt | rfl
  · exact (count_lt hj hlt hk).le
  · exact le_rfl

theorem count_le_length (hk : CutAt text k) (hle : k ≤ text.length) :
    count text k ≤ (points text).length := by
  have h := count_le hk hle le_rfl
  have hall : count text text.length = (points text).length := by rw [count, List.take_length]
  rwa [hall] at h

end Counts

end Orm.Logic.Utf16
