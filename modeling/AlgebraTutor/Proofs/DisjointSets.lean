/-
What sets of texts compute.

Two texts are in one set if their numbers have the same root.  Compressing a path relinks numbers to
roots they have anyway, so it moves no root; linking one root to another replaces the first by the
second wherever it was the root.  So a look-up changes no set, and a union joins two sets and leaves
all others as they are.
-/
import Mathlib
import AlgebraTutor.Equality.DisjointSet

namespace AlgebraTutor

namespace Forest

variable {f : Forest} {i : Nat}

/-! ### Roots -/

theorem root_eq_self (h : f.link i = i) : f.root i = i := by
  rw [root, if_pos h]

theorem root_link (f : Forest) (i : Nat) : f.root (f.link i) = f.root i := by
  by_cases h : f.link i = i
  · rw [h]
  · rw [root.eq_1 f i, if_neg h]

theorem root_le (f : Forest) (i : Nat) : f.root i ≤ i := by
  fun_induction root f i with
  | case1 i h => exact Nat.le_refl i
  | case2 i h ih => exact ih.trans (f.link_le i)

theorem link_root (f : Forest) (i : Nat) : f.link (f.root i) = f.root i := by
  fun_induction root f i with
  | case1 i h => exact h
  | case2 i h ih => exact ih

theorem root_root (f : Forest) (i : Nat) : f.root (f.root i) = f.root i :=
  root_eq_self (f.link_root i)

/-- A function that is fixed on roots and does not change along links finds the roots. -/
theorem root_unique (r : Nat → Nat) (hfixed : ∀ i, f.link i = i → r i = i)
    (hlink : ∀ i, r (f.link i) = r i) (i : Nat) : f.root i = r i := by
  fun_induction root f i with
  | case1 i h => exact (hfixed i h).symm
  | case2 i h ih => exact ih.trans (hlink i)

/-- Every number on the way to a root has that root. -/
theorem root_of_mem_trail {n : Nat} (h : n ∈ f.trail i) : f.root n = f.root i := by
  fun_induction trail f i with
  | case1 i hlink => cases h
  | case2 i hlink ih =>
      rcases List.mem_cons.mp h with rfl | h
      · rfl
      · exact (ih h).trans (f.root_link i)

/-! ### New links -/

theorem link_of_size_le (h : f.links.size ≤ i) : f.link i = i := by
  rw [link, Array.getD_eq_getD_getElem?, Array.getElem?_eq_none h, Option.getD_none]

theorem size_grow (f : Forest) : f.grow.links.size = f.links.size + 1 := by
  simp [grow]

theorem link_grow (f : Forest) (i : Nat) : f.grow.link i = f.link i := by
  simp only [link, grow, Array.getD_eq_getD_getElem?, Array.getElem?_push]
  split
  · next h => simp [h]
  · rfl

theorem root_grow (f : Forest) (i : Nat) : f.grow.root i = f.root i :=
  root_unique f.root (fun i h => root_eq_self (by rwa [link_grow] at h))
    (fun i => by rw [link_grow, root_link]) i

theorem size_relink (f : Forest) (i target : Nat) (h : target ≤ i) :
    (f.relink i target h).links.size = f.links.size := by
  simp [relink]

theorem link_relink (f : Forest) (i target : Nat) (h : target ≤ i) (j : Nat) :
    (f.relink i target h).link j = if i = j ∧ i < f.links.size then target else f.link j := by
  simp only [link, relink, Array.getD_eq_getD_getElem?, Array.getElem?_setIfInBounds]
  by_cases hij : i = j
  · subst hij
    by_cases hsize : i < f.links.size
    · simp [hsize]
    · simp [hsize]
  · simp [hij]

/-- Linking a number to its root directly moves no root. -/
theorem root_relink_root (f : Forest) (i : Nat) (j : Nat) :
    (f.relink i (f.root i) (f.root_le i)).root j = f.root j := by
  refine root_unique f.root (fun j hj => ?_) (fun j => ?_) j
  · rw [link_relink] at hj
    split at hj
    · next h => rw [← h.1] at hj ⊢; exact hj
    · exact root_eq_self hj
  · rw [link_relink]
    split
    · next h => rw [← h.1, root_root]
    · exact f.root_link j

theorem root_relinkAll (target : Nat) (numbers : List Nat) : ∀ (f : Forest),
    (∀ n ∈ numbers, f.root n = target) → ∀ j, (f.relinkAll target numbers).root j = f.root j := by
  unfold relinkAll
  induction numbers with
  | nil => intro f _ j; rfl
  | cons n numbers ih =>
      intro f h j
      obtain ⟨hn, hnumbers⟩ := List.forall_mem_cons.mp h
      subst hn
      rw [List.foldl_cons, dif_pos (f.root_le n)]
      rw [ih _ (fun m hm => (f.root_relink_root n m).trans (hnumbers m hm)), root_relink_root]

/-- **Compressing a path moves no root.** -/
theorem root_compress (f : Forest) (i j : Nat) : (f.compress i).root j = f.root j :=
  root_relinkAll _ _ f (fun _ hn => root_of_mem_trail hn) j

theorem size_compress (f : Forest) (i : Nat) : (f.compress i).links.size = f.links.size := by
  suffices h : ∀ (target : Nat) (numbers : List Nat) (f : Forest),
      (f.relinkAll target numbers).links.size = f.links.size from h _ _ f
  intro target numbers
  unfold relinkAll
  induction numbers with
  | nil => intro f; rfl
  | cons n numbers ih =>
      intro f
      rw [List.foldl_cons, ih]
      split
      · exact f.size_relink n target _
      · rfl

/-- A root that is linked to another one is replaced by it. -/
theorem root_relink {child parent : Nat} (hle : parent ≤ child) (hsize : child < f.links.size)
    (hchild : f.root child = child) (hparent : f.root parent = parent) (j : Nat) :
    (f.relink child parent hle).root j = if f.root j = child then parent else f.root j := by
  refine root_unique (fun j => if f.root j = child then parent else f.root j)
    (fun j hj => ?_) (fun j => ?_) j
  · rw [link_relink] at hj
    split at hj
    · next h =>
        obtain ⟨rfl, -⟩ := h
        rw [if_pos hchild, hj]
    · next h =>
        have hroot := root_eq_self hj
        rw [if_neg, hroot]
        rw [hroot]
        exact fun hjc => h ⟨hjc.symm, hsize⟩
  · rw [link_relink]
    split
    · next h =>
        obtain ⟨rfl, -⟩ := h
        rw [hchild, hparent, if_pos rfl]
        split <;> rfl
    · rw [root_link]

end Forest

namespace DisjointSet

variable {d : DisjointSet} {a b x y z : String}

/-! ### Sets -/

/-- Every number that has been given out has a link. -/
def WellNumbered (d : DisjointSet) : Prop :=
  ∀ (text : String) (n : Nat), d.numbers[text]? = some n → n < d.forest.links.size

/-- Two texts have numbers with the same root. -/
def InOneSet (d : DisjointSet) (x y : String) : Prop :=
  ∃ m n, d.numbers[x]? = some m ∧ d.numbers[y]? = some n ∧ d.find m = d.find n

theorem inOneSet_iff {m n : Nat} (hx : d.numbers[x]? = some m) (hy : d.numbers[y]? = some n) :
    d.InOneSet x y ↔ d.find m = d.find n := by
  constructor
  · rintro ⟨m', n', hm', hn', h⟩
    obtain rfl : m = m' := Option.some.inj (hx.symm.trans hm')
    obtain rfl : n = n' := Option.some.inj (hy.symm.trans hn')
    exact h
  · exact fun h => ⟨m, n, hx, hy, h⟩

theorem find_find (d : DisjointSet) (n : Nat) : d.find (d.find n) = d.find n :=
  d.forest.root_root n

theorem WellNumbered.find_lt (hd : d.WellNumbered) {n : Nat} (h : d.numbers[x]? = some n) :
    d.find n < d.forest.links.size := (d.forest.root_le n).trans_lt (hd x n h)

theorem wellNumbered_empty : empty.WellNumbered := by
  intro text n h
  simp [empty] at h

theorem not_inOneSet_empty : ¬empty.InOneSet x y := by
  rintro ⟨m, n, hm, -⟩
  simp [empty] at hm

theorem InOneSet.symm : d.InOneSet x y → d.InOneSet y x
  | ⟨m, n, hm, hn, h⟩ => ⟨n, m, hn, hm, h.symm⟩

theorem InOneSet.trans : d.InOneSet x y → d.InOneSet y z → d.InOneSet x z
  | ⟨m, n, hm, hn, h⟩, ⟨n', k, hn', hk, h'⟩ => by
      obtain rfl : n = n' := Option.some.inj (hn.symm.trans hn')
      exact ⟨m, k, hm, hk, h.trans h'⟩

/-- The sets of one collection are those of the other: the texts have the same numbers, and these
the same roots. -/
structure Agrees (d e : DisjointSet) : Prop where
  numbers : e.numbers = d.numbers
  size : e.forest.links.size = d.forest.links.size
  find : ∀ n, e.find n = d.find n

namespace Agrees

variable {e : DisjointSet}

theorem trans {e' : DisjointSet} (h : d.Agrees e) (h' : e.Agrees e') : d.Agrees e' where
  numbers := h'.numbers.trans h.numbers
  size := h'.size.trans h.size
  find n := (h'.find n).trans (h.find n)

theorem inOneSet (h : d.Agrees e) : e.InOneSet x y ↔ d.InOneSet x y := by
  simp only [InOneSet, h.numbers, h.find]

theorem wellNumbered (h : d.Agrees e) (hd : d.WellNumbered) : e.WellNumbered := by
  intro text n hn
  rw [h.numbers] at hn
  rw [h.size]
  exact hd text n hn

end Agrees

theorem agrees_refl (d : DisjointSet) : d.Agrees d := ⟨rfl, rfl, fun _ => rfl⟩

theorem agrees_findCompressing (d : DisjointSet) (n : Nat) : d.Agrees (d.findCompressing n).2 where
  numbers := rfl
  size := d.forest.size_compress n
  find := d.forest.root_compress n

/-- **Asking whether two texts are in one set tells the truth and changes no set.** -/
theorem same_spec (d : DisjointSet) (a b : String) :
    ((d.same a b).1 = true ↔ d.InOneSet a b) ∧ d.Agrees (d.same a b).2 := by
  unfold same
  split
  · next m n hm hn =>
      have hagrees := d.agrees_findCompressing m
      refine ⟨?_, hagrees.trans (agrees_findCompressing _ n)⟩
      have hright : ((d.findCompressing m).2.findCompressing n).1 = d.find n := hagrees.find n
      simp only [hright, beq_iff_eq]
      exact (inOneSet_iff hm hn).symm
  · next hno =>
      refine ⟨⟨fun h => Bool.noConfusion h, fun h => ?_⟩, d.agrees_refl⟩
      obtain ⟨m, n, hm, hn, -⟩ := h
      exact absurd hn (hno m n hm)

/-! ### Union -/

/-- A text that gets a number is a set of its own, unless it had a number before. -/
structure Numbers (d : DisjointSet) (a : String) (n : Nat) (e : DisjointSet) : Prop where
  wellNumbered : e.WellNumbered
  number : e.numbers[a]? = some n
  keeps : ∀ (text : String) (k : Nat), d.numbers[text]? = some k → e.numbers[text]? = some k
  inOneSet : ∀ x y, e.InOneSet x y ↔ d.InOneSet x y ∨ x = a ∧ y = a

/-- A text without a number gets one that no text had before. -/
theorem numbers_insert (hd : d.WellNumbered) (hnone : d.numbers[a]? = none) :
    d.Numbers a d.forest.links.size
      ⟨d.numbers.insert a d.forest.links.size, d.forest.grow⟩ := by
  have hget (text : String) : (d.numbers.insert a d.forest.links.size)[text]? =
      if a = text then some d.forest.links.size else d.numbers[text]? := by
    simp [Std.TreeMap.getElem?_insert]
  have hself := (hget a).trans (if_pos rfl)
  have hkeeps (text : String) (k : Nat) (hk : d.numbers[text]? = some k) :
      (d.numbers.insert a d.forest.links.size)[text]? = some k := by
    rw [hget, if_neg, hk]
    rintro rfl
    rw [hnone] at hk
    cases hk
  have hnew : d.find d.forest.links.size = d.forest.links.size :=
    Forest.root_eq_self (Forest.link_of_size_le (Nat.le_refl _))
  have hold {text : String} {k : Nat} (hk : d.numbers[text]? = some k) :
      d.find k ≠ d.forest.links.size := (hd.find_lt hk).ne
  refine ⟨fun text k hk => ?_, hself, hkeeps, fun x y => ⟨?_, ?_⟩⟩
  · rw [Forest.size_grow]
    rw [hget] at hk
    split at hk
    · cases hk
      exact Nat.lt_succ_self _
    · exact Nat.lt_succ_of_lt (hd text k hk)
  · rintro ⟨m, n, hm, hn, h⟩
    rw [hget] at hm hn
    simp only [find, Forest.root_grow] at h
    split at hm
    · next hx =>
        cases hm
        split at hn
        · next hy => exact .inr ⟨hx.symm, hy.symm⟩
        · exact absurd (h.symm.trans hnew) (hold hn)
    · split at hn
      · cases hn
        exact absurd (h.trans hnew) (hold hm)
      · exact .inl ⟨m, n, hm, hn, h⟩
  · rintro (⟨m, n, hm, hn, h⟩ | ⟨rfl, rfl⟩)
    · refine ⟨m, n, hkeeps x m hm, hkeeps y n hn, ?_⟩
      simpa only [find, Forest.root_grow] using h
    · exact ⟨_, _, hself, hself, rfl⟩

theorem numbers_number (hd : d.WellNumbered) (a : String) :
    d.Numbers a (d.number a).1 (d.number a).2 := by
  unfold number
  split
  · next n hn =>
      refine ⟨hd, hn, fun _ _ h => h, fun x y => ⟨.inl, ?_⟩⟩
      rintro (h | ⟨rfl, rfl⟩)
      · exact h
      · exact ⟨n, n, hn, hn, rfl⟩
  · next hnone => exact numbers_insert hd hnone

/-- The larger of two roots is linked to the smaller one. -/
theorem find_linkRoots {r s : Nat} (hr : d.find r = r) (hs : d.find s = s)
    (hrsize : r < d.forest.links.size) (hssize : s < d.forest.links.size) (n : Nat) :
    (d.linkRoots r s).find n = if d.find n = max r s then min r s else d.find n := by
  unfold linkRoots
  split
  · next h =>
      rw [max_eq_right h, min_eq_left h]
      exact Forest.root_relink h hssize hs hr n
  · next h =>
      have h := Nat.le_of_not_le h
      rw [max_eq_left h, min_eq_right h]
      exact Forest.root_relink h hrsize hr hs n

/-- Linking the roots of two texts joins their sets. -/
theorem linkRoots_spec {i j : Nat} (hd : d.WellNumbered) (ha : d.numbers[a]? = some i)
    (hb : d.numbers[b]? = some j) :
    (d.linkRoots (d.find i) (d.find j)).WellNumbered ∧
      ∀ x y, (d.linkRoots (d.find i) (d.find j)).InOneSet x y ↔
        d.InOneSet x y ∨ (d.InOneSet x a ∨ d.InOneSet x b) ∧ (d.InOneSet y a ∨ d.InOneSet y b) := by
  have hfind := find_linkRoots (d.find_find i) (d.find_find j) (hd.find_lt ha) (hd.find_lt hb)
  have hnumbers : (d.linkRoots (d.find i) (d.find j)).numbers = d.numbers := by
    unfold linkRoots
    split <;> rfl
  have hsize : (d.linkRoots (d.find i) (d.find j)).forest.links.size = d.forest.links.size := by
    unfold linkRoots
    split
    · exact Forest.size_relink _ _ _ ‹_›
    · exact Forest.size_relink _ _ _ (Nat.le_of_not_le ‹_›)
  refine ⟨fun text n hn => ?_, fun x y => ?_⟩
  · rw [hnumbers] at hn
    rw [hsize]
    exact hd text n hn
  · -- Without a number for both texts, neither side can hold.
    by_cases hnumbered : ∃ m n, d.numbers[x]? = some m ∧ d.numbers[y]? = some n
    · obtain ⟨m, n, hx, hy⟩ := hnumbered
      rw [inOneSet_iff (hnumbers ▸ hx) (hnumbers ▸ hy), inOneSet_iff hx hy, inOneSet_iff hx ha,
        inOneSet_iff hx hb, inOneSet_iff hy ha, inOneSet_iff hy hb, hfind, hfind]
      grind
    · refine iff_of_false ?_ ?_
      · rintro ⟨m, n, hx, hy, -⟩
        exact hnumbered ⟨m, n, hnumbers ▸ hx, hnumbers ▸ hy⟩
      · rintro (⟨m, n, hx, hy, -⟩ | ⟨⟨m, -, hx, -⟩ | ⟨m, -, hx, -⟩, ⟨n, -, hy, -⟩ | ⟨n, -, hy, -⟩⟩)
        all_goals exact hnumbered ⟨m, n, hx, hy⟩

/-- The text is `a` or in the set of `a`. -/
def Touches (d : DisjointSet) (a x : String) : Prop := x = a ∨ d.InOneSet x a

/-- **A union joins the sets of the two texts and leaves all others as they are.** -/
theorem union_spec (hd : d.WellNumbered) (a b : String) :
    (d.union a b).WellNumbered ∧ ∀ x y, (d.union a b).InOneSet x y ↔
      d.InOneSet x y ∨ (d.Touches a x ∨ d.Touches b x) ∧ (d.Touches a y ∨ d.Touches b y) := by
  have hA := numbers_number hd a
  have hB := numbers_number hA.wellNumbered b
  rcases hnumberA : d.number a with ⟨i, dA⟩
  rw [hnumberA] at hA hB
  rcases hnumberB : dA.number b with ⟨j, dB⟩
  rw [hnumberB] at hB
  have hfirst := dB.agrees_findCompressing i
  have hagrees := hfirst.trans (agrees_findCompressing _ j)
  have hunion : d.union a b =
      if dB.find i = (dB.findCompressing i).2.find j then
        ((dB.findCompressing i).2.findCompressing j).2
      else ((dB.findCompressing i).2.findCompressing j).2.linkRoots (dB.find i)
        ((dB.findCompressing i).2.find j) := by
    rw [union, hnumberA]
    simp only [hnumberB]
    rfl
  rw [hunion, hfirst.find, ← hagrees.find, ← hagrees.find]
  -- What is linked is `e`, in which both texts have numbers and no sets are joined yet.
  generalize ((dB.findCompressing i).2.findCompressing j).2 = e at hagrees
  have hwell := hagrees.wellNumbered hB.wellNumbered
  have ha : e.numbers[a]? = some i := by rw [hagrees.numbers, hB.keeps a i hA.number]
  have hb : e.numbers[b]? = some j := by rw [hagrees.numbers, hB.number]
  have hsets (x y : String) :
      e.InOneSet x y ↔ d.InOneSet x y ∨ x = a ∧ y = a ∨ x = b ∧ y = b := by
    rw [hagrees.inOneSet, hB.inOneSet, hA.inOneSet, or_assoc]
  have hjoined (x y : String) :
      e.InOneSet x y ∨ (e.InOneSet x a ∨ e.InOneSet x b) ∧ (e.InOneSet y a ∨ e.InOneSet y b) ↔
        d.InOneSet x y ∨ (d.Touches a x ∨ d.Touches b x) ∧ (d.Touches a y ∨ d.Touches b y) := by
    have hsymm {x y : String} : d.InOneSet x y ↔ d.InOneSet y x := ⟨.symm, .symm⟩
    have htrans {x y z : String} : d.InOneSet x y → d.InOneSet y z → d.InOneSet x z := .trans
    simp only [hsets, Touches]
    grind
  obtain ⟨hlinked, hlinkedSets⟩ := linkRoots_spec hwell ha hb
  split
  · next heq =>
      have hab : e.InOneSet a b := ⟨i, j, ha, hb, heq⟩
      have ha {x : String} (h : e.InOneSet x a ∨ e.InOneSet x b) : e.InOneSet x a :=
        h.elim id fun h => h.trans hab.symm
      refine ⟨hwell, fun x y => ⟨fun h => (hjoined x y).mp (.inl h), fun h => ?_⟩⟩
      exact ((hjoined x y).mpr h).elim id fun h => (ha h.1).trans (ha h.2).symm
  · exact ⟨hlinked, fun x y => (hlinkedSets x y).trans (hjoined x y)⟩

end DisjointSet

end AlgebraTutor
