/-
Sets of texts are the classes of an equivalence relation.

Whatever has been united and asked, in whatever order, two texts are in one set exactly if both have
been united with something and a chain of unions leads from one to the other.  A single union joins
two sets, and adding a pair to a relation joins two classes of the equivalence relation that it
generates; so the sets follow the classes step by step, and questions change neither.

The forest shows a class by its smallest number.  For this it has to be known that the numbers are
given out one by one, each to one text: then a root is itself the number of a text, and it is in the
class because it is its own root.
-/
import AlgebraTutor.Proofs.DisjointSets

namespace AlgebraTutor

open Relation

namespace Forest

/-- Following the links from a number comes to its root, after no more links than the number says,
and no number before the root is linked to itself. -/
theorem exists_iterate_link (f : Forest) (i : Nat) :
    ∃ k ≤ i, f.link^[k] i = f.root i ∧ ∀ j < k, f.link (f.link^[j] i) ≠ f.link^[j] i := by
  fun_induction root f i with
  | case1 i h => exact ⟨0, Nat.zero_le i, rfl, fun j hj => absurd hj (Nat.not_lt_zero j)⟩
  | case2 i h ih =>
      obtain ⟨k, hk, hroot, hbefore⟩ := ih
      have hlt : f.link i < i := Nat.lt_of_le_of_ne (f.link_le i) h
      refine ⟨k + 1, by omega, hroot, fun j hj => ?_⟩
      cases j with
      | zero => exact h
      | succ j => exact hbefore j (Nat.lt_of_succ_lt_succ hj)

/-- The numbers on the way to a root have links of their own. -/
theorem lt_size_of_mem_trail {f : Forest} {i n : Nat} (h : n ∈ f.trail i) : n < f.links.size := by
  have hlink : f.link n ≠ n := by
    fun_induction trail f i with
    | case1 i hroot => cases h
    | case2 i hlink ih =>
        rcases List.mem_cons.mp h with rfl | h
        · exact hlink
        · exact ih h
  exact Nat.lt_of_not_le fun hsize => hlink (link_of_size_le hsize)

theorem link_relinkAll {target : Nat} {numbers : List Nat} : ∀ {f : Forest},
    (∀ n ∈ numbers, target ≤ n ∧ n < f.links.size) → ∀ j, (f.relinkAll target numbers).link j =
      if j ∈ numbers then target else f.link j := by
  unfold relinkAll
  induction numbers with
  | nil => intro f _ j; rfl
  | cons n numbers ih =>
      intro f h j
      obtain ⟨⟨hle, hsize⟩, hnumbers⟩ := List.forall_mem_cons.mp h
      rw [List.foldl_cons, dif_pos hle, ih (by rwa [size_relink]), link_relink]
      by_cases hj : j ∈ numbers
      · rw [if_pos hj, if_pos (.tail _ hj)]
      · rw [if_neg hj]
        by_cases hnj : n = j
        · rw [if_pos ⟨hnj, hsize⟩, if_pos (hnj ▸ .head _)]
        · rw [if_neg fun h => hnj h.1, if_neg]
          exact List.not_mem_cons_of_ne_of_not_mem (Ne.symm hnj) hj

/-- **Compressing a path links every number on it to the root**, and changes no other link. -/
theorem link_compress (f : Forest) (i j : Nat) :
    (f.compress i).link j = if j ∈ f.trail i then f.root i else f.link j := by
  refine link_relinkAll (fun n hn => ⟨?_, lt_size_of_mem_trail hn⟩) j
  rw [← root_of_mem_trail hn]
  exact f.root_le n

end Forest

/-- A pair that is added to a relation joins two classes of the equivalence relation it generates,
and changes no other class. -/
theorem eqvGen_insert {α : Type} {r s : α → α → Prop} {a b : α}
    (hs : ∀ x y, s x y ↔ r x y ∨ x = a ∧ y = b) (x y : α) :
    EqvGen s x y ↔ EqvGen r x y ∨
      (EqvGen r x a ∨ EqvGen r x b) ∧ (EqvGen r y a ∨ EqvGen r y b) := by
  constructor
  · intro h
    induction h with
    | rel x y h =>
        rcases (hs x y).mp h with h | ⟨rfl, rfl⟩
        · exact .inl (.rel x y h)
        · exact .inr ⟨.inl (.refl x), .inr (.refl y)⟩
    | refl x => exact .inl (.refl x)
    | symm x y _ ih => exact ih.imp (.symm x y) And.symm
    | trans x y z _ _ ihxy ihyz =>
        rcases ihxy, ihyz with ⟨hxy | ⟨hx, hy⟩, hyz | ⟨hy', hz⟩⟩
        · exact .inl (hxy.trans _ _ _ hyz)
        · exact .inr ⟨hy'.imp (hxy.trans _ _ _) (hxy.trans _ _ _), hz⟩
        · have hzy := hyz.symm
          exact .inr ⟨hx, hy.imp (hzy.trans _ _ _) (hzy.trans _ _ _)⟩
        · exact .inr ⟨hx, hz⟩
  · have hold {x y : α} (h : EqvGen r x y) : EqvGen s x y :=
      h.mono fun x y h => (hs x y).mpr (.inl h)
    have hab : EqvGen s a b := .rel a b ((hs a b).mpr (.inr ⟨rfl, rfl⟩))
    have hjoined {x : α} (h : EqvGen r x a ∨ EqvGen r x b) : EqvGen s x a :=
      h.elim hold fun h => (hold h).trans _ _ _ hab.symm
    rintro (h | ⟨hx, hy⟩)
    · exact hold h
    · exact (hjoined hx).trans _ _ _ (hjoined hy).symm

namespace DisjointSet

variable {d : DisjointSet} {a b x y : String}

/-! ### Numbers -/

/-- Each number that has been given out belongs to one text. -/
def OneEach (d : DisjointSet) : Prop :=
  ∀ n < d.forest.links.size, ∃! text : String, d.numbers[text]? = some n

theorem oneEach_insert (hd : d.WellNumbered) (h : d.OneEach) (hnone : d.numbers[a]? = none) :
    OneEach ⟨d.numbers.insert a d.forest.links.size, d.forest.grow⟩ := by
  have hget (text : String) : (d.numbers.insert a d.forest.links.size)[text]? =
      if a = text then some d.forest.links.size else d.numbers[text]? := by
    simp [Std.TreeMap.getElem?_insert]
  intro n hn
  rw [Forest.size_grow] at hn
  simp only [hget]
  rcases Nat.lt_succ_iff_lt_or_eq.mp hn with hn | rfl
  · obtain ⟨text, htext, hunique⟩ := h n hn
    refine ⟨text, ?_, fun other hother => ?_⟩
    · beta_reduce
      rw [if_neg, htext]
      rintro rfl
      rw [hnone] at htext
      cases htext
    · beta_reduce at hother
      split at hother
      · cases hother
        exact absurd hn (Nat.lt_irrefl _)
      · exact hunique other hother
  · refine ⟨a, if_pos rfl, fun other hother => ?_⟩
    beta_reduce at hother
    split at hother
    · next heq => exact heq.symm
    · exact absurd (hd other _ hother) (Nat.lt_irrefl _)

theorem oneEach_number (hd : d.WellNumbered) (h : d.OneEach) (a : String) :
    (d.number a).2.OneEach := by
  unfold number
  split
  · exact h
  · next hnone => exact oneEach_insert hd h hnone

/-- Looking for roots and linking them gives out no number. -/
theorem union_numbers (d : DisjointSet) (a b : String) :
    (d.union a b).numbers = ((d.number a).2.number b).2.numbers ∧
      (d.union a b).forest.links.size = ((d.number a).2.number b).2.forest.links.size := by
  have hlink (e : DisjointSet) (r s : Nat) : (e.linkRoots r s).numbers = e.numbers ∧
      (e.linkRoots r s).forest.links.size = e.forest.links.size := by
    unfold linkRoots
    split
    · exact ⟨rfl, Forest.size_relink _ _ _ ‹_›⟩
    · exact ⟨rfl, Forest.size_relink _ _ _ (Nat.le_of_not_le ‹_›)⟩
  have hagrees (e : DisjointSet) (m n : Nat) :
      e.Agrees ((e.findCompressing m).2.findCompressing n).2 :=
    (e.agrees_findCompressing m).trans (agrees_findCompressing _ n)
  rcases hnumberA : d.number a with ⟨i, dA⟩
  rcases hnumberB : dA.number b with ⟨j, dB⟩
  rw [union, hnumberA]
  simp only [hnumberB]
  split
  · exact ⟨(hagrees dB i j).numbers, (hagrees dB i j).size⟩
  · exact ⟨(hlink _ _ _).1.trans (hagrees dB i j).numbers,
      (hlink _ _ _).2.trans (hagrees dB i j).size⟩

theorem oneEach_union (hd : d.WellNumbered) (h : d.OneEach) (a b : String) :
    (d.union a b).OneEach := by
  obtain ⟨hnumbers, hsize⟩ := d.union_numbers a b
  unfold OneEach
  rw [hnumbers, hsize]
  exact oneEach_number (numbers_number hd a).wellNumbered (oneEach_number hd h a) b

theorem Agrees.oneEach {e : DisjointSet} (h : d.Agrees e) (hd : d.OneEach) : e.OneEach := by
  unfold OneEach
  rw [h.numbers, h.size]
  exact hd

/-! ### Histories -/

/-- What can be asked of sets of texts. -/
inductive Request
  | union (a b : String)
  | same (a b : String)

/-- The sets after a request. -/
def after (d : DisjointSet) : Request → DisjointSet
  | .union a b => d.union a b
  | .same a b => (d.same a b).2

/-- The sets after some requests, where there were none before. -/
def run (requests : List Request) : DisjointSet := requests.foldl after empty

/-- The two texts have been united, in this order. -/
def United (requests : List Request) (a b : String) : Prop := .union a b ∈ requests

/-- The text has been united with another one, or with itself. -/
def Occurs (requests : List Request) (a : String) : Prop :=
  ∃ b, United requests a b ∨ United requests b a

variable {requests : List Request}

theorem united_concat_union : United (requests ++ [.union a b]) x y ↔
    United requests x y ∨ x = a ∧ y = b := by
  simp [United]

theorem united_concat_same : United (requests ++ [.same a b]) = United requests := by
  funext x y
  simp [United]

theorem occurs_concat_union : Occurs (requests ++ [.union a b]) x ↔
    Occurs requests x ∨ x = a ∨ x = b := by
  simp only [Occurs, united_concat_union]
  grind

/-- Only texts that have been united are related to other texts. -/
theorem occurs_of_eqvGen (h : EqvGen (United requests) x y) :
    x = y ∨ Occurs requests x ∧ Occurs requests y := by
  induction h with
  | rel x y h => exact .inr ⟨⟨y, .inl h⟩, x, .inr h⟩
  | refl x => exact .inl rfl
  | symm x y _ ih => exact ih.imp Eq.symm And.symm
  | trans x y z _ _ ihxy ihyz =>
      rcases ihxy with rfl | ⟨hx, hy⟩
      · exact ihyz
      · rcases ihyz with rfl | ⟨-, hz⟩
        · exact .inr ⟨hx, hy⟩
        · exact .inr ⟨hx, hz⟩

/-- The sets are those that the requests have made. -/
structure Follows (d : DisjointSet) (requests : List Request) : Prop where
  wellNumbered : d.WellNumbered
  oneEach : d.OneEach
  inOneSet : ∀ x y, d.InOneSet x y ↔
    Occurs requests x ∧ Occurs requests y ∧ EqvGen (United requests) x y

namespace Follows

theorem touches (h : d.Follows requests) : d.Touches a x ↔ EqvGen (United requests) x a := by
  rw [Touches, h.inOneSet]
  constructor
  · rintro (rfl | ⟨-, -, h⟩)
    · exact .refl x
    · exact h
  · intro h
    rcases occurs_of_eqvGen h with heq | ⟨hx, ha⟩
    · exact .inl heq
    · exact .inr ⟨hx, ha, h⟩

theorem union (h : d.Follows requests) (a b : String) :
    (d.union a b).Follows (requests ++ [.union a b]) := by
  obtain ⟨hnumbered, hsets⟩ := union_spec h.wellNumbered a b
  refine ⟨hnumbered, oneEach_union h.wellNumbered h.oneEach a b, fun x y => ?_⟩
  rw [hsets, h.inOneSet, eqvGen_insert (fun x y => united_concat_union) x y]
  simp only [h.touches, occurs_concat_union]
  have hoccurs {x : String}
      (hx : EqvGen (United requests) x a ∨ EqvGen (United requests) x b) :
      Occurs requests x ∨ x = a ∨ x = b := by
    rcases hx with hx | hx
    · exact (occurs_of_eqvGen hx).elim (fun h => .inr (.inl h)) fun h => .inl h.1
    · exact (occurs_of_eqvGen hx).elim (fun h => .inr (.inr h)) fun h => .inl h.1
  constructor
  · rintro (⟨hx, hy, hxy⟩ | ⟨hx, hy⟩)
    · exact ⟨.inl hx, .inl hy, .inl hxy⟩
    · exact ⟨hoccurs hx, hoccurs hy, .inr ⟨hx, hy⟩⟩
  · rintro ⟨hx, -, hxy | hjoined⟩
    · rcases occurs_of_eqvGen hxy with rfl | ⟨hx, hy⟩
      · -- A new text is related to nothing but itself, but then it is one of the two.
        rcases hx with hx | rfl | rfl
        · exact .inl ⟨hx, hx, hxy⟩
        · exact .inr ⟨.inl hxy, .inl hxy⟩
        · exact .inr ⟨.inr hxy, .inr hxy⟩
      · exact .inl ⟨hx, hy, hxy⟩
    · exact .inr hjoined

theorem same (h : d.Follows requests) (a b : String) :
    (d.same a b).2.Follows (requests ++ [.same a b]) := by
  have hagrees := (d.same_spec a b).2
  refine ⟨hagrees.wellNumbered h.wellNumbered, hagrees.oneEach h.oneEach, fun x y => ?_⟩
  rw [hagrees.inOneSet, h.inOneSet, Occurs, Occurs, Occurs, Occurs, united_concat_same]

end Follows

theorem follows_empty : empty.Follows [] where
  wellNumbered := wellNumbered_empty
  oneEach n hn := absurd hn (Nat.not_lt_zero n)
  inOneSet x y := by simp [not_inOneSet_empty, Occurs, United]

/-- **The sets are what the requests have made of them**, after any history. -/
theorem follows_run (requests : List Request) : (run requests).Follows requests := by
  induction requests using List.reverseRecOn with
  | nil => exact follows_empty
  | append_singleton requests request ih =>
      rw [run, List.foldl_concat]
      cases request with
      | union a b => exact ih.union a b
      | same a b => exact ih.same a b

/-! ### What the sets compute -/

/-- The sets compute the equivalence relation that the united pairs generate. -/
structure ComputesClosure (d : DisjointSet) (requests : List Request) : Prop where
  /-- A number is linked to one that is no larger and has been given out itself. -/
  link : ∀ (i p : Nat), d.forest.links[i]? = some p → p ≤ i ∧ i < d.forest.links.size
  /-- The numbers below the size of the forest are in use, each for one text. -/
  numbers : (∀ (text : String) (n : Nat), d.numbers[text]? = some n → n < d.forest.links.size) ∧
    ∀ n < d.forest.links.size, ∃! text : String, d.numbers[text]? = some n
  /-- Looking for the number of a set follows links until one leads nowhere else, and comes to an
  end. -/
  find_ends : ∀ n < d.forest.links.size, d.forest.link (d.find n) = d.find n ∧
    ∃ k ≤ n, d.forest.link^[k] n = d.find n ∧
      ∀ j < k, d.forest.link (d.forest.link^[j] n) ≠ d.forest.link^[j] n
  /-- The number of a set is the smallest of its texts' numbers. -/
  find_least : ∀ (text : String) (n : Nat), d.numbers[text]? = some n →
    IsLeast {m | ∃ other : String, d.numbers[other]? = some m ∧
      EqvGen (United requests) text other} (d.find n)
  /-- Looking for the number of a set makes the links on the way direct, and changes no set. -/
  compressing : ∀ n, (d.findCompressing n).1 = d.find n ∧ d.Agrees (d.findCompressing n).2 ∧
    ∀ m, (d.findCompressing n).2.forest.link m =
      if m ∈ d.forest.trail n then d.find n else d.forest.link m
  /-- Asking for two texts changes no set. -/
  asking : ∀ a b, d.Agrees (d.same a b).2
  /-- Two texts are the same if both have been united with something and are related by what has
  been united. -/
  same_iff : ∀ a b, (d.same a b).1 = true ↔
    Occurs requests a ∧ Occurs requests b ∧ EqvGen (United requests) a b

theorem Follows.find_least (h : d.Follows requests) {n : Nat} (hx : d.numbers[x]? = some n) :
    IsLeast {m | ∃ y : String, d.numbers[y]? = some m ∧ EqvGen (United requests) x y}
      (d.find n) := by
  constructor
  · -- The root is in use, and the text that has it is in the set of `x`, being its own root.
    obtain ⟨y, hy, -⟩ := h.oneEach (d.find n) (h.wellNumbered.find_lt hx)
    exact ⟨y, hy, ((h.inOneSet x y).mp ⟨n, _, hx, hy, (d.find_find n).symm⟩).2.2⟩
  · rintro m ⟨y, hy, hxy⟩
    have hself : d.InOneSet x x := ⟨n, n, hx, hx, rfl⟩
    have hset : d.InOneSet x y := by
      rcases occurs_of_eqvGen hxy with rfl | ⟨hoccursX, hoccursY⟩
      · exact hself
      · exact (h.inOneSet x y).mpr ⟨hoccursX, hoccursY, hxy⟩
    rw [(inOneSet_iff hx hy).mp hset]
    exact d.forest.root_le m

/-- **The sets of texts are the classes of the equivalence relation that the unions generate**,
after any unions and questions in any order, and the number that stands for a set is the smallest
in it. -/
theorem run_computesClosure (requests : List Request) :
    (run requests).ComputesClosure requests := by
  have h := follows_run requests
  generalize run requests = d at h
  refine ⟨fun i p hi => ?_, ⟨h.wellNumbered, h.oneEach⟩, fun n _ => ⟨d.forest.link_root n,
    d.forest.exists_iterate_link n⟩, fun text n hn => h.find_least hn,
    fun n => ⟨rfl, d.agrees_findCompressing n, d.forest.link_compress n⟩, fun a b => (d.same_spec a b).2, fun a b => ?_⟩
  · have hle : d.forest.link i ≤ i := d.forest.link_le i
    rw [Forest.link, Array.getD_eq_getD_getElem?, hi, Option.getD_some] at hle
    exact ⟨hle, (Array.getElem?_eq_some_iff.mp hi).1⟩
  · rw [(d.same_spec a b).1, h.inOneSet]

example :
    let d := run [.union "a" "b", .union "c" "d", .same "a" "c", .union "b" "d"]
    d.find 3 = 0 ∧ (d.same "a" "c").1 = true ∧ (d.same "a" "e").1 = false := by cbv

end DisjointSet

end AlgebraTutor
