import TreeQuery.Proofs.Finite
import TreeQuery.Proofs.Selector.Ensure
import TreeQuery.Proofs.Value.Order

/-!
# Read or make

Ensuring reads what the selector picks, or makes it.  Where something is picked already,
ensuring only reads.  Where nothing is, it makes nothing at all, or one new child that is
picked from then on (`Selector.Contract`).

A new child under a filter is a copy of its pattern, and a pattern with a missing number
accepts nothing, not even its copy.  So the contract is kept by a selector without such a
pattern, and by any selector where it has nothing to make (`Selector.contract_iff`).

A missing number comes into a pattern by a word of the path that is read as one, although it
stands for no number (`Selector.ensure_contract`).
-/

namespace TreeQuery

/-- The value has one new child, at the address and after all others.  Nothing else is new. -/
inductive Value.Gains : Value → Address → Value → Prop where
  | entry {entries : Compound} {name : String} (child : Value) :
      Compound.get? entries name = none →
      Gains (.compound entries) [.key name] (.compound (entries ++ [(name, child)]))
  | item {items : List Value} (child : Value) :
      Gains (.list items) [.index items.length] (.list (items ++ [child]))

/-- A new key goes to the end. -/
theorem Value.gains_insert {entries : Compound} {name : String} (child : Value)
    (h : Compound.get? entries name = none) :
    (Value.compound entries).Gains [.key name]
      (.compound (Compound.insert entries name child)) := by
  have hnew : name ∉ Compound.keys entries := by
    intro hmem
    rw [← Compound.get?_isSome_iff_mem_keys, h] at hmem
    cases hmem
  rw [Compound.insert_of_notMem hnew]
  exact .entry child h

theorem Value.Gains.ne {old new : Value} {address : Address} (h : old.Gains address new) :
    new ≠ old := by
  cases h with
  | entry child _ =>
      intro heq
      have hlength := congrArg List.length (Value.compound.inj heq)
      simp at hlength
  | item child =>
      intro heq
      have hlength := congrArg List.length (Value.list.inj heq)
      simp at hlength

namespace Selector

/-! ## The contract -/

/-- The outcome of ensuring where nothing is picked. -/
inductive Makes (selector : Selector) (value : Value) (s : Supply) :
    (Value × List Address) × Supply → Prop where
  /-- Nothing is made. -/
  | nothing : Makes selector value s ((value, []), s)
  /-- One child is made, and it is what the selector picks then. -/
  | child {new : Value} {address : Address} {s' : Supply} : value.Gains address new →
      selector.locate new = [address] → Makes selector value s ((new, [address]), s')

/-- Ensuring reads what is picked, or makes it. -/
structure Contract (selector : Selector) (value : Value) (s : Supply) : Prop where
  /-- What is picked is read, and nothing is taken from the supply. -/
  found : selector.locate value ≠ [] →
    (selector.ensure value).run s = ((value, selector.locate value), s)
  /-- What is not picked is made, or nothing is. -/
  missing : selector.locate value = [] → selector.Makes value s ((selector.ensure value).run s)

/-- No number in the pattern of the selector is missing. -/
def isNaNFree (selector : Selector) : Bool :=
  selector.pattern?.all fun pattern => (Value.compound pattern).isNaNFree

variable {selector : Selector} {value old new : Value} {picked : List Address} {s s' : Supply}

/-- Where something is picked, there is nothing to make. -/
theorem settled_of_locate (h : selector.locate value ≠ []) : selector.Settled value := by
  cases value with
  | compound entries =>
      cases selector with
      | child name =>
          refine Option.isSome_iff_ne_none.mpr fun hnone => h ?_
          rw [locate, hnone]
          rfl
      | childMatching name pattern =>
          refine Option.isSome_iff_ne_none.mpr fun hnone => h ?_
          rw [locate, hnone]
          rfl
      | rootMatching pattern => trivial
      | elements => trivial
      | element index => trivial
      | elementsMatching pattern => trivial
  | list items =>
      cases selector with
      | child name => trivial
      | childMatching name pattern => trivial
      | rootMatching pattern => trivial
      | elements =>
          rintro rfl
          exact h rfl
      | element index => trivial
      | elementsMatching pattern => exact any_accepts_iff.mpr h
  | scalar leaf => cases selector <;> trivial

theorem contract_of_settled (h : selector.Settled value) (s : Supply) :
    selector.Contract value s := by
  refine ⟨fun _ => ensure_of_settled h s, fun hnil => ?_⟩
  rw [ensure_of_settled h, hnil]
  exact .nothing

/-! ## What is made -/

theorem positionsFrom_concat {condition : Value → Bool} {items : List Value} {item : Value}
    (hitems : items.any condition = false) (hitem : condition item = true) (first : Nat) :
    positionsFrom condition first (items ++ [item]) = [first + items.length] := by
  induction items generalizing first with
  | nil => simp [positionsFrom, hitem]
  | cons other items ih =>
      rw [List.any_cons, Bool.or_eq_false_iff] at hitems
      rw [List.cons_append, positionsFrom, hitems.1, if_neg Bool.false_ne_true, ih hitems.2,
        List.length_cons]
      congr 1
      omega

/-- What is made where something is missing is a child that is picked then, if the copies of
patterns are accepted. -/
theorem Grows.makes (hcopy : selector.Copyable) (hmissing : selector.locate old = [])
    (h : Grows selector old new picked) : selector.Makes old s ((new, picked), s') := by
  cases h with
  | child child hnone =>
      refine .child (Value.gains_insert child hnone) ?_
      simp [locate, Compound.get?_insert]
  | @childMatching entries pattern name hnone =>
      refine .child (Value.gains_insert _ hnone) ?_
      simp [locate, Compound.get?_insert, hcopy pattern rfl]
  | elements child => exact .child (.item child) rfl
  | @elementsMatching pattern items =>
      have hnone : items.any pattern.accepts = false :=
        Bool.eq_false_iff.mpr fun hany => any_accepts_iff.mp hany hmissing
      have hpicked : (Selector.elementsMatching pattern).locate
          (.list (items ++ [.compound pattern])) = [[.index items.length]] := by
        rw [locate, positionsFrom_concat hnone (hcopy pattern rfl), Nat.zero_add]
        rfl
      rw [hpicked]
      exact .child (.item _) hpicked

/-- Whether the copies of patterns are accepted or not, one child is made. -/
theorem Grows.gains (h : Grows selector old new picked) : ∃ address, old.Gains address new := by
  cases h with
  | child child hnone => exact ⟨_, Value.gains_insert child hnone⟩
  | childMatching hnone => exact ⟨_, Value.gains_insert _ hnone⟩
  | elements child => exact ⟨_, .item child⟩
  | elementsMatching => exact ⟨_, .item _⟩

theorem contract_of_copyable (hcopy : selector.Copyable) (value : Value) (s : Supply) :
    selector.Contract value s := by
  by_cases hsettled : selector.Settled value
  · exact contract_of_settled hsettled s
  · exact ⟨fun hfound => absurd (settled_of_locate hfound) hsettled,
      (ensure_of_not_settled hsettled s).makes hcopy⟩

/-! ## Missing numbers -/

/-- The keys in the pattern of the selector are distinct. -/
def Keyed (selector : Selector) : Prop :=
  ∀ pattern ∈ selector.pattern?, (Value.compound pattern).Keyed

theorem copyable_iff (hkeyed : selector.Keyed) :
    selector.Copyable ↔ selector.isNaNFree = true := by
  unfold Copyable isNaNFree
  unfold Keyed at hkeyed
  cases hpattern : selector.pattern? with
  | none => simp
  | some pattern =>
      rw [Option.all_some, ← Value.accepts_self_iff (hkeyed pattern hpattern)]
      exact ⟨fun h => h pattern rfl, fun h _ heq => Option.some.inj heq ▸ h⟩

/-- A pattern with a missing number admits nothing. -/
theorem isNaNFree_of_admits (hkeyed : selector.Keyed) (h : selector.admits value = true) :
    selector.isNaNFree = true := by
  unfold isNaNFree
  unfold admits at h
  cases hpattern : selector.pattern? with
  | none => rfl
  | some pattern =>
      rw [hpattern, Option.all_some] at h
      exact Value.isNaNFree_of_accepts (hkeyed pattern hpattern) h

/-- So nothing is picked. -/
theorem locate_eq_nil (hkeyed : selector.Keyed) (hmissing : selector.isNaNFree = false)
    (value : Value) : selector.locate value = [] := by
  refine List.eq_nil_iff_forall_not_mem.mpr fun address haddress => ?_
  obtain ⟨-, inner, -, hadmits⟩ := mem_locate.mp haddress
  rw [isNaNFree_of_admits hkeyed hadmits] at hmissing
  cases hmissing

/-- The contract is kept where no number in the pattern is missing, and where there is nothing to
make. -/
theorem contract_iff (hkeyed : selector.Keyed) :
    selector.Contract value s ↔ selector.isNaNFree = true ∨ selector.Settled value := by
  constructor
  · intro h
    refine or_iff_not_imp_right.mpr fun hsettled => ?_
    by_contra hmissing
    have hnone := locate_eq_nil hkeyed (Bool.eq_false_iff.mpr hmissing)
    obtain ⟨address, hgains⟩ := (ensure_of_not_settled hsettled s).gains
    have hmakes := h.missing (hnone value)
    generalize (selector.ensure value).run s = outcome at hmakes hgains
    cases hmakes with
    | nothing => exact hgains.ne rfl
    | child _ hpicked =>
        rw [hnone] at hpicked
        cases hpicked
  · rintro (hnumbers | hsettled)
    · exact contract_of_copyable ((copyable_iff hkeyed).mpr hnumbers) value s
    · exact contract_of_settled hsettled s

/-! ## Selectors of paths -/

/-- A number that is missing in a filter of a path is missing in a word of the path. -/
theorem exists_word_of_parse {text : String} {limit : Nat} {path : Path}
    (h : Path.parse text limit = .ok path) (hselector : selector ∈ path.selectors)
    (hmissing : selector.isNaNFree = false) :
    ∃ word, Literal.StandsIn word text.toList ∧ Literal.bareScalar word = .float .nan := by
  have hfilter := Path.filterIn_of_parse h selector hselector
  unfold isNaNFree at hmissing
  cases hpattern : selector.pattern? with
  | none =>
      rw [hpattern] at hmissing
      cases hmissing
  | some pattern =>
      rw [hpattern, Option.all_some] at hmissing
      obtain ⟨filter, hfilter, hstands⟩ := hfilter pattern hpattern
      obtain ⟨word, hword, hleaf⟩ := hfilter.valueText.exists_word (fun _ => rfl) hmissing
      refine ⟨word, hword.of_infix hfilter hstands, ?_⟩
      generalize Literal.bareScalar word = leaf at hleaf ⊢
      cases leaf with
      | float x =>
          cases x with
          | nan => rfl
          | infinite negative => cases hleaf
          | finite negative magnitude => cases hleaf
      | bool b => cases hleaf
      | int n => cases hleaf
      | string s => cases hleaf

/-- A selector of a path keeps the contract of ensuring, unless a number in its pattern is
missing and there is something to make.

Then its pattern accepts nothing, so it picks nothing anywhere.  Yet a child is made that it
does not pick.  The missing number is a word of the text that is read as one. -/
theorem ensure_contract {text : String} {limit : Nat} {path : Path}
    (h : Path.parse text limit = .ok path) :
    ∀ selector ∈ path.selectors,
      (∀ value s, selector.Contract value s
          ↔ selector.isNaNFree = true ∨ selector.Settled value)
        ∧ (selector.isNaNFree = false →
            (∀ value, selector.locate value = [])
              ∧ (∀ value s, selector.Settled value
                  ∨ ∃ address, value.Gains address ((selector.ensure value).run s).1.1)
              ∧ ∃ word, Literal.StandsIn word text.toList
                  ∧ Literal.bareScalar word = .float .nan) := by
  intro selector hselector
  have hkeyed : selector.Keyed := by
    intro pattern hpattern
    obtain ⟨filter, hfilter, -⟩ := Path.filterIn_of_parse h selector hselector pattern hpattern
    exact hfilter.keyed
  refine ⟨fun value s => contract_iff hkeyed, fun hmissing => ⟨locate_eq_nil hkeyed hmissing,
    fun value s => ?_, exists_word_of_parse h hselector hmissing⟩⟩
  exact or_iff_not_imp_left.mpr fun hsettled => (ensure_of_not_settled hsettled s).gains

/-- The word after the colon is a missing number.  The copy of the filter is not picked where
the key was missing.  Where it is there, nothing is made. -/
theorem ensure_contract_under_filter :
    let selector := Selector.childMatching "a" [("b", .scalar (.float .nan))]
    let path : Path := ⟨"a\x7bb:+NaN\x7d", [⟨selector, 9⟩]⟩
    let supply := Supply.always (.list [])
    Path.parse path.text = .ok path ∧ selector.isNaNFree = false
      ∧ ¬selector.Contract (.compound []) supply
      ∧ selector.Contract (.compound [("a", .list [])]) supply
      ∧ ∃ word, Literal.StandsIn word path.text.toList
          ∧ Literal.bareScalar word = .float .nan := by
  intro selector path supply
  have hparse : Path.parse path.text = .ok path := by cbv
  obtain ⟨hcontract, hmissing⟩ := ensure_contract hparse selector (List.mem_singleton_self _)
  have hnumbers : selector.isNaNFree = false := rfl
  refine ⟨hparse, hnumbers, ?_, (hcontract _ _).mpr (.inr rfl), (hmissing hnumbers).2.2⟩
  rw [hcontract, hnumbers]
  rintro (hfree | hsettled)
  · cases hfree
  · cases hsettled

/-- A filter with a missing number picks nothing in an empty list, and what ensuring makes of
the list is not empty.  Its answer is, so it makes the same again. -/
theorem ensure_grows_unpicked :
    let pattern : Compound := [("a", .scalar (.float .nan))]
    let selector := Selector.elementsMatching pattern
    let path : Path := ⟨"[\x7ba:+NaN\x7d]", [⟨selector, 10⟩]⟩
    let supply := Supply.always (.list [])
    Path.parse path.text = .ok path ∧ selector.locate (.list []) = []
      ∧ (selector.ensure (.list [])).run supply = ((.list [.compound pattern], []), supply)
      ∧ (selector.ensure (.list [.compound pattern])).run supply
          = ((.list [.compound pattern, .compound pattern], []), supply)
      ∧ ¬selector.Contract (.list []) supply := by
  intro pattern selector path supply
  have hrun : (selector.ensure (.list [])).run supply
      = ((.list [.compound pattern], []), supply) := rfl
  refine ⟨by cbv, rfl, hrun, rfl, fun h => ?_⟩
  have hmakes := h.missing rfl
  rw [hrun] at hmakes
  cases hmakes

end Selector

end TreeQuery
