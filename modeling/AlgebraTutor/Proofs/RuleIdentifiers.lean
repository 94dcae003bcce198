/-
No two rules of a set have the same identifier, whatever table the set was made from.

The identifiers of one change differ in their numbers.  Those of different changes could still
clash: nothing about texts in general keeps the name of one change from being that of another with
a number behind it, and some of the names do have the two underscores in them that stand before a
number.  But no name ends in a digit.  So an identifier can be cut in front of its last digits,
and what is cut off says whether there is a number and which one (`eq_of_append_digits`).  The
rest is counting: a rule gets the number of rules with its change before it, in all groups, and
that only grows.
-/
import AlgebraTutor.Proofs.WholeTexts
import AlgebraTutor.Rule.Table
import Mathlib

namespace AlgebraTutor

/-! ### Names with numbers -/

theorem Change.mem_all (change : Change) : change ∈ all := by cases change <;> decide

theorem Change.ofName?_name (change : Change) : ofName? change.name = some change := by
  have hall : ∀ change ∈ all, ofName? change.name = some change := by decide +kernel
  exact hall change change.mem_all

theorem Change.name_injective {change change' : Change} (h : change.name = change'.name) :
    change = change' := by
  have hread := ofName?_name change
  rw [h, ofName?_name] at hread
  exact (Option.some.inj hread).symm

/-- The text does not end in a digit. -/
def EndsPlain (text : List Char) : Prop := text.getLast?.any Char.isDigit = false

instance (text : List Char) : Decidable (EndsPlain text) :=
  inferInstanceAs (Decidable (text.getLast?.any Char.isDigit = false))

theorem Change.endsPlain_name (change : Change) : EndsPlain change.name.toList := by
  have hall : ∀ change ∈ all, EndsPlain change.name.toList := by decide +kernel
  exact hall change change.mem_all

theorem endsPlain_append {front more : List Char} (h : more ≠ []) :
    EndsPlain (front ++ more) ↔ (more.getLast h).isDigit = false := by
  rw [EndsPlain, List.getLast?_append_of_ne_nil _ h, List.getLast?_eq_some_getLast h,
    Option.any_some]

/-- If the text up to a cut does not end in a digit, and from an earlier cut on there are only
digits, the cuts are the same. -/
theorem eq_nil_of_append_digits {front more digits : List Char} (h : EndsPlain (front ++ more))
    (hdigits : ∀ c ∈ more ++ digits, c.isDigit = true) : more = [] := by
  by_contra hmore
  have hdigit := hdigits _ (List.mem_append_left _ (List.getLast_mem hmore))
  rw [(endsPlain_append hmore).mp h] at hdigit
  cases hdigit

/-- The digits at the end of a text can be cut off in one way only. -/
theorem eq_of_append_digits {front front' digits digits' : List Char} (hfront : EndsPlain front)
    (hfront' : EndsPlain front') (hdigits : ∀ c ∈ digits, c.isDigit = true)
    (hdigits' : ∀ c ∈ digits', c.isDigit = true)
    (h : front ++ digits = front' ++ digits') : front = front' ∧ digits = digits' := by
  rcases List.append_eq_append_iff.mp h with ⟨more, rfl, rfl⟩ | ⟨more, rfl, rfl⟩
  · obtain rfl := eq_nil_of_append_digits hfront' hdigits
    simp
  · obtain rfl := eq_nil_of_append_digits hfront hdigits'
    simp

namespace RuleSet

/-- What stands in front of the number of an identifier. -/
def caseFront (change : Change) (count : Nat) : List Char :=
  if count = 0 then change.name.toList else change.name.toList ++ "__CASE_".toList

/-- The number of an identifier. -/
def caseDigits (count : Nat) : List Char := if count = 0 then [] else Nat.toDigits 10 count

theorem toList_caseId (change : Change) (count : Nat) :
    (caseId change count).toList = caseFront change count ++ caseDigits count := by
  rw [caseId, caseFront, caseDigits]
  split
  · simp
  · simp

theorem endsPlain_caseFront (change : Change) (count : Nat) :
    EndsPlain (caseFront change count) := by
  rw [caseFront]
  split
  · exact change.endsPlain_name
  · rw [endsPlain_append (by simp)]
    rfl

theorem isDigit_of_mem_caseDigits {count : Nat} : ∀ c ∈ caseDigits count, c.isDigit = true := by
  intro c hc
  rw [caseDigits] at hc
  split at hc
  · cases hc
  · exact Nat.isDigit_of_mem_toDigits (by decide) (Nat.le_refl 10) hc

/-- The number can be read back, and it tells the first rule of a change from the others. -/
theorem caseDigits_injective {count count' : Nat} (h : caseDigits count = caseDigits count') :
    count = count' := by
  have hread (n : Nat) : Nat.ofDigitChars 10 (caseDigits n) 0 = n := by
    rw [caseDigits]
    split
    · next hn => rw [hn]; rfl
    · exact Nat.ofDigitChars_ten_toDigits
  rw [← hread count, h, hread]

/-- An identifier says which change it names and how often that was named before. -/
theorem caseId_injective {change change' : Change} {count count' : Nat}
    (h : caseId change count = caseId change' count') : change = change' ∧ count = count' := by
  have htext : caseFront change count ++ caseDigits count =
      caseFront change' count' ++ caseDigits count' := by
    rw [← toList_caseId, ← toList_caseId, h]
  obtain ⟨hfront, hdigits⟩ := eq_of_append_digits (endsPlain_caseFront change count)
    (endsPlain_caseFront change' count') isDigit_of_mem_caseDigits isDigit_of_mem_caseDigits htext
  obtain rfl := caseDigits_injective hdigits
  refine ⟨Change.name_injective (String.toList_injective ?_), rfl⟩
  rw [caseFront, caseFront] at hfront
  split at hfront
  · exact hfront
  · exact List.append_cancel_right hfront

/-! ### Counting -/

variable {seen : List Change} {specs : List RuleSpec}

/-- A rule is numbered at least by what was named before all of them. -/
theorem exists_caseId_of_mem {rule : Rule} (h : rule ∈ (identifyRules seen specs).1) :
    ∃ count, seen.count rule.change ≤ count ∧ rule.id = caseId rule.change count := by
  induction specs generalizing seen with
  | nil => cases h
  | cons spec specs ih =>
      rw [identifyRules] at h
      rcases List.mem_cons.mp h with rfl | h
      · exact ⟨_, Nat.le_refl _, rfl⟩
      · obtain ⟨count, hle, hid⟩ := ih h
        exact ⟨count, Nat.le_trans List.count_le_count_cons hle, hid⟩

theorem nodup_identifyRules (seen : List Change) (specs : List RuleSpec) :
    ((identifyRules seen specs).1.map (·.id)).Nodup := by
  induction specs generalizing seen with
  | nil => exact List.nodup_nil
  | cons spec specs ih =>
      rw [identifyRules]
      refine List.nodup_cons.mpr ⟨fun hmem => ?_, ih (spec.change :: seen)⟩
      obtain ⟨rule, hrule, hid⟩ := List.mem_map.mp hmem
      obtain ⟨count, hle, hcase⟩ := exists_caseId_of_mem hrule
      -- The same change, but numbered after this rule was.
      obtain ⟨hchange, rfl⟩ := caseId_injective (hcase.symm.trans hid)
      rw [hchange, List.count_cons_self] at hle
      omega

/-- The changes that were named by the first rules are handed on to the others. -/
theorem identifyRules_append (seen : List Change) (specs others : List RuleSpec) :
    (identifyRules seen (specs ++ others)).1 =
      (identifyRules seen specs).1 ++
        (identifyRules (identifyRules seen specs).2 others).1 := by
  induction specs generalizing seen with
  | nil => rfl
  | cons spec specs ih =>
      simp only [List.cons_append, identifyRules]
      rw [ih]

/-- Rules are numbered through all groups as if there were only one. -/
theorem rules_identifyGroups (seen : List Change) (groups : List (Group RuleSpec)) :
    (identifyGroups seen groups).flatMap (·.rules) =
      (identifyRules seen (groups.flatMap (·.rules))).1 := by
  induction groups generalizing seen with
  | nil => rfl
  | cons group groups ih =>
      rw [identifyGroups, List.flatMap_cons, List.flatMap_cons, identifyRules_append, ih]

theorem nodup_ids_ofGroups (groups : List (Group RuleSpec)) :
    ((ofGroups groups).rules.map (·.id)).Nodup := by
  rw [rules, ofGroups, rules_identifyGroups]
  exact nodup_identifyRules [] _

/-- A rule is found by its identifier if no other rule has it. -/
theorem get?_id {set : RuleSet} (h : (set.rules.map (·.id)).Nodup) {rule : Rule}
    (hrule : rule ∈ set.rules) : set.get? rule.id = some rule := by
  have hsome : (set.get? rule.id).isSome := by
    rw [get?, List.find?_isSome]
    exact ⟨rule, hrule, decide_eq_true rfl⟩
  obtain ⟨found, hfound⟩ := Option.isSome_iff_exists.mp hsome
  rw [get?] at hfound
  have htest := List.find?_some hfound
  have hid : found.id = rule.id := of_decide_eq_true htest
  rw [get?, hfound, List.inj_on_of_nodup_map h (List.mem_of_find?_eq_some hfound) hrule hid]

/-! ### The order of a table -/

theorem toRuleSpec_identifyRules (seen : List Change) (specs : List RuleSpec) :
    (identifyRules seen specs).1.map (·.toRuleSpec) = specs := by
  induction specs generalizing seen with
  | nil => rfl
  | cons spec specs ih =>
      rw [identifyRules, List.map_cons, ih]

/-- A group without the identifiers of its rules. -/
def plain (group : Group Rule) : Group RuleSpec := ⟨group.name, group.rules.map (·.toRuleSpec)⟩

/-- Groups with identifiers are the groups that were given, in their order. -/
theorem plain_identifyGroups (seen : List Change) (groups : List (Group RuleSpec)) :
    (identifyGroups seen groups).map plain = groups := by
  induction groups generalizing seen with
  | nil => rfl
  | cons group groups ih =>
      rw [identifyGroups, List.map_cons, ih, plain, toRuleSpec_identifyRules]

end RuleSet

/-- What is read one after the other stays in order. -/
theorem mapM_eq_ok_iff {ε α β : Type} {f : α → Except ε β} {l : List α} {l' : List β} :
    l.mapM f = .ok l' ↔ List.Forall₂ (fun a b => f a = .ok b) l l' := by
  constructor
  · intro h
    induction l generalizing l' with
    | nil =>
        cases h
        exact .nil
    | cons a l ih =>
        rw [List.mapM_cons] at h
        obtain ⟨b, hfirst, h⟩ := bind_eq_ok.mp h
        obtain ⟨bs, hrest, h⟩ := bind_eq_ok.mp h
        cases h
        exact .cons hfirst (ih hrest)
  · intro h
    induction h with
    | nil => rfl
    | cons hfirst _ ih =>
        rw [List.mapM_cons, hfirst, ih]
        rfl

/-- The rules of a group are those that are written in it, in the same order. -/
def Group.IsReadFrom (text : Group RuleText) (group : Group Rule) : Prop :=
  group.name = text.name ∧
    List.Forall₂ (fun written rule => written.read = .ok rule.toRuleSpec) text.rules group.rules

theorem Group.isReadFrom {text : Group RuleText} {group : Group Rule}
    (h : text.read = .ok (RuleSet.plain group)) : text.IsReadFrom group := by
  obtain ⟨specs, hspecs, heq⟩ := bind_eq_ok.mp h
  have hname : text.name = group.name := congrArg Group.name (Except.ok.inj heq)
  have hrules : specs = group.rules.map (·.toRuleSpec) := congrArg Group.rules (Except.ok.inj heq)
  have hread := mapM_eq_ok_iff.mp hspecs
  rw [hrules, List.forall₂_map_right_iff] at hread
  exact ⟨hname.symm, hread⟩

namespace RuleSet

/-- **Every rule of a table is found by its identifier.** A set that could be made from a table
has the groups and rules of the table in their order, and no identifier occurs twice in it,
however often and in whichever groups a change is named. -/
theorem ofTable_identifies (table : List (Group RuleText)) (set : RuleSet)
    (h : ofTable table = .ok set) :
    (set.rules.map (·.id)).Nodup ∧ List.Forall₂ Group.IsReadFrom table set.groups ∧
      ∀ rule ∈ set.rules, set.get? rule.id = some rule := by
  obtain ⟨groups, hgroups, heq⟩ := bind_eq_ok.mp h
  cases heq
  have hnodup := nodup_ids_ofGroups groups
  refine ⟨hnodup, ?_, fun rule hrule => get?_id hnodup hrule⟩
  have hread := mapM_eq_ok_iff.mp hgroups
  rw [← plain_identifyGroups [] groups, List.forall₂_map_right_iff] at hread
  exact hread.imp fun _ _ h => Group.isReadFrom h

/-- A table that names the same change in both of its groups. -/
def addingZero : List (Group RuleText) := [
  ⟨"zero last", [⟨.removeAddingZero, "n1+0", .structural "n1", []⟩]⟩,
  ⟨"zero first", [⟨.removeAddingZero, "0+n1", .structural "n1", []⟩]⟩]

open Pattern.Wildcard in
/-- The second of the two rules has a number. -/
theorem addingZero_identifies : ∃ set, ofTable addingZero = .ok set ∧
    set.rules.map (·.id) = ["REMOVE_ADDING_ZERO", "REMOVE_ADDING_ZERO__CASE_1"] ∧
    (set.rules.map (·.id)).Nodup ∧ List.Forall₂ Group.IsReadFrom addingZero set.groups ∧
    ∀ rule ∈ set.rules, set.get? rule.id = some rule := by
  have hlast : Pattern.parse "n1+0" = .ok (n1 + 0) := Pattern.parse_of_ofText? (by cbv)
  have hfirst : Pattern.parse "0+n1" = .ok (0 + n1) := Pattern.parse_of_ofText? (by cbv)
  have hrest : Pattern.parse "n1" = .ok n1 := Pattern.parse_of_ofText? (by cbv)
  have hmade : ofTable addingZero = .ok (ofGroups [
      ⟨"zero last", [.structural .removeAddingZero (n1 + 0) n1]⟩,
      ⟨"zero first", [.structural .removeAddingZero (0 + n1) n1]⟩]) := by
    simp only [ofTable, addingZero, List.mapM_cons, List.mapM_nil, Group.read, RuleText.read,
      RuleSpec.parse, hlast, hfirst, hrest]
    rfl
  exact ⟨_, hmade, by cbv, ofTable_identifies addingZero _ hmade⟩

end RuleSet

end AlgebraTutor
