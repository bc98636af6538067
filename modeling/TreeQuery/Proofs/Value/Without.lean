import TreeQuery.Proofs.Value.Matching

/-!
# A tree without some of its locations

`Value.without gone` is the tree without the locations that satisfy a condition.
Keys and elements that stay keep their order, and below them the same is done with
the rest of their addresses.  So nothing is made, and a value that is not above one
of the locations stays as it is.

Locations that are taken away in several steps can be taken away at once
(`without_put`): first some below one place, then others that part from that place.
-/

namespace TreeQuery

/-! ## Taking locations away -/

namespace Value

mutual

/-- The tree without the locations below it that satisfy a condition. -/
def without (gone : Address → Bool) : Value → Value
  | .compound entries => .compound (withoutEntries gone entries)
  | .list items => .list (withoutItems gone 0 items)
  | .scalar s => .scalar s

/-- The entries of a compound, without the locations that satisfy a condition. -/
def withoutEntries (gone : Address → Bool) : List (String × Value) → List (String × Value)
  | [] => []
  | (name, value) :: rest =>
      if gone [.key name] then withoutEntries gone rest
      else (name, without (fun below => gone (.key name :: below)) value)
        :: withoutEntries gone rest

/-- The elements of a list from a position on, without the locations that satisfy a
condition.  The positions are those of the whole list before anything is taken
away. -/
def withoutItems (gone : Address → Bool) : Nat → List Value → List Value
  | _, [] => []
  | position, item :: rest =>
      if gone [.index position] then withoutItems gone (position + 1) rest
      else without (fun below => gone (.index position :: below)) item
        :: withoutItems gone (position + 1) rest

end

/-- The second key goes, and so does an element below the third one. -/
example : Value.without [[.key "b"], [.key "c", .index 0]].contains
      (.compound [("a", .list []), ("b", .list []), ("c", .list [.list [], .compound []])])
    = .compound [("a", .list []), ("c", .list [.compound []])] := by rfl

/-! ## Where nothing goes -/

mutual

/-- A tree from which nothing goes stays as it is. -/
@[simp] theorem without_false : ∀ value : Value, value.without (fun _ => false) = value
  | .compound entries => by rw [without, withoutEntries_false entries]
  | .list items => by rw [without, withoutItems_false 0 items]
  | .scalar s => by rw [without]

@[simp] theorem withoutEntries_false : ∀ entries : List (String × Value),
    withoutEntries (fun _ => false) entries = entries
  | [] => by rw [withoutEntries]
  | (name, value) :: rest => by
      rw [withoutEntries, without_false value, withoutEntries_false rest, if_neg (by decide)]

@[simp] theorem withoutItems_false : ∀ (position : Nat) (items : List Value),
    withoutItems (fun _ => false) position items = items
  | _, [] => by rw [withoutItems]
  | position, item :: rest => by
      rw [withoutItems, without_false item, withoutItems_false (position + 1) rest,
        if_neg (by decide)]

end

/-! ## Where locations go one step down -/

/-- When nothing goes further down, a child stays whole or goes. -/
theorem without_child_of_flat {gone : Address → Bool}
    (hflat : ∀ step step' below, gone (step :: step' :: below) = false) {step : Step}
    (hstep : ¬gone [step] = true) (child : Value) :
    child.without (fun below => gone (step :: below)) = child := by
  have hnone : (fun below => gone (step :: below)) = fun _ => false := by
    funext below
    cases below with
    | nil => exact (Bool.not_eq_true _).mp hstep
    | cons step' below => exact hflat step step' below
  rw [hnone, without_false]

theorem withoutEntries_of_flat {gone : Address → Bool}
    (hflat : ∀ step step' below, gone (step :: step' :: below) = false)
    (entries : List (String × Value)) :
    withoutEntries gone entries = entries.filter fun entry => !gone [.key entry.1] := by
  induction entries with
  | nil => rfl
  | cons entry rest ih =>
      obtain ⟨name, value⟩ := entry
      rw [withoutEntries, ih, List.filter_cons]
      split
      · next hgone => simp [hgone]
      · next hgone =>
        rw [without_child_of_flat hflat hgone]
        simp [hgone]

/-- The elements that satisfy a condition go. -/
theorem withoutItems_eq_filter {gone : Address → Bool} {condition : Value → Bool}
    (hflat : ∀ step step' below, gone (step :: step' :: below) = false) {items : List Value} :
    ∀ {first : Nat}, (∀ (position : Nat) (item : Value), items[position]? = some item →
        gone [.index (first + position)] = condition item) →
      withoutItems gone first items = items.filter fun item => !condition item := by
  induction items with
  | nil => intro first _; rfl
  | cons item rest ih =>
      intro first h
      have hitem : gone [.index first] = condition item := h 0 item rfl
      have hrest := @ih (first + 1) fun position other hother => by
        rw [Nat.add_assoc, Nat.add_comm 1]
        exact h (position + 1) other hother
      rw [withoutItems, hrest, List.filter_cons]
      split
      · next hgone =>
        rw [hitem] at hgone
        simp [hgone]
      · next hgone =>
        rw [without_child_of_flat hflat hgone]
        rw [hitem] at hgone
        simp [hgone]

/-- The element at one position goes. -/
theorem withoutItems_eq_eraseIdx {gone : Address → Bool} {place : Nat}
    (hflat : ∀ step step' below, gone (step :: step' :: below) = false) {items : List Value} :
    ∀ {first : Nat}, (∀ position, gone [.index (first + position)] = (position == place)) →
      withoutItems gone first items = items.eraseIdx place := by
  induction items generalizing place with
  | nil => intro first _; rfl
  | cons item rest ih =>
      intro first h
      have hitem : gone [.index first] = (0 == place) := h 0
      have hnext : ∀ position, gone [.index (first + 1 + position)] = (position + 1 == place) := by
        intro position
        rw [Nat.add_assoc, Nat.add_comm 1]
        exact h (position + 1)
      cases place with
      | zero =>
          -- The first element goes, and no other one does.
          have hrest : withoutItems gone (first + 1) rest = rest := by
            have hfilter := @withoutItems_eq_filter gone (fun _ => false) hflat rest (first + 1)
              fun position _ _ => (hnext position).trans (by simp)
            rw [hfilter]
            simp
          rw [withoutItems, hitem, if_pos (by decide), hrest, List.eraseIdx_cons_zero]
      | succ place =>
          have hkept : ¬gone [.index first] = true := by simp [hitem]
          have hrest := @ih place (first + 1) fun position => by rw [hnext]; simp
          rw [withoutItems, if_neg hkept, without_child_of_flat hflat hkept, hrest,
            List.eraseIdx_cons_succ]

/-! ## One place after the others -/

theorem withoutEntries_congr {gone gone' : Address → Bool} {entries : List (String × Value)}
    (h : ∀ entry ∈ entries, ∀ below, gone (.key entry.1 :: below) = gone' (.key entry.1 :: below)) :
    withoutEntries gone entries = withoutEntries gone' entries := by
  induction entries with
  | nil => rfl
  | cons entry rest ih =>
      obtain ⟨hentry, hrest⟩ := List.forall_mem_cons.mp h
      simp only [withoutEntries, hentry, ih hrest]

theorem withoutItems_congr {gone gone' : Address → Bool} {items : List Value} :
    ∀ {first : Nat}, (∀ position, first ≤ position → ∀ below,
        gone (.index position :: below) = gone' (.index position :: below)) →
      withoutItems gone first items = withoutItems gone' first items := by
  induction items with
  | nil => intro first _; rfl
  | cons item rest ih =>
      intro first h
      have hrest := @ih (first + 1) fun position hle => h position (by omega)
      simp only [withoutItems, h first (Nat.le_refl first), hrest]

/-- The child of one key may lose its locations before the others do. -/
theorem withoutEntries_insert {gone gone' : Address → Bool} {entries : Compound} {name : String}
    {child child' : Value} (hkeys : (Compound.keys entries).Nodup)
    (hchild : Compound.get? entries name = some child)
    (hkept : gone [.key name] = false ∧ gone' [.key name] = false)
    (hsame : child.without (fun below => gone (.key name :: below))
      = child'.without fun below => gone' (.key name :: below))
    (hothers : ∀ other, other ≠ name → ∀ below,
      gone (.key other :: below) = gone' (.key other :: below)) :
    withoutEntries gone entries = withoutEntries gone' (Compound.insert entries name child') := by
  induction entries with
  | nil => cases hchild
  | cons entry rest ih =>
      obtain ⟨key, value⟩ := entry
      obtain ⟨hkey, hrest⟩ := List.nodup_cons.mp hkeys
      rw [Compound.get?] at hchild
      rw [Compound.insert]
      by_cases heq : key = name
      · subst heq
        rw [if_pos rfl] at hchild
        obtain rfl := Option.some.inj hchild
        have htail : withoutEntries gone rest = withoutEntries gone' rest := by
          refine withoutEntries_congr fun entry hentry => hothers entry.1 ?_
          rintro rfl
          have hmem : entry.1 ∈ Compound.keys rest := List.mem_map_of_mem hentry
          exact hkey hmem
        simp only [if_true, withoutEntries, hkept.1, hkept.2, hsame, htail]
      · rw [if_neg heq] at hchild ⊢
        simp only [withoutEntries, hothers key heq, ih hrest hchild]

/-- The element at one position may lose its locations before the others do. -/
theorem withoutItems_set {gone gone' : Address → Bool} {items : List Value} {child child' : Value} :
    ∀ {first place : Nat}, items[place]? = some child →
      gone [.index (first + place)] = false ∧ gone' [.index (first + place)] = false →
      child.without (fun below => gone (.index (first + place) :: below))
        = child'.without (fun below => gone' (.index (first + place) :: below)) →
      (∀ position, position ≠ first + place → ∀ below,
        gone (.index position :: below) = gone' (.index position :: below)) →
      withoutItems gone first items = withoutItems gone' first (items.set place child') := by
  induction items with
  | nil => intro first place h; cases h
  | cons item rest ih =>
      intro first place hchild hkept hsame hothers
      cases place with
      | zero =>
          obtain rfl := Option.some.inj hchild
          rw [Nat.add_zero] at hkept hsame hothers
          have htail : withoutItems gone (first + 1) rest = withoutItems gone' (first + 1) rest :=
            withoutItems_congr fun position hle => hothers position (by omega)
          simp only [List.set_cons_zero, withoutItems, hkept.1, hkept.2, hsame, htail]
      | succ place =>
          have hplace : first + (place + 1) = first + 1 + place := by omega
          rw [hplace] at hkept hsame hothers
          have htail := @ih (first + 1) place hchild hkept hsame hothers
          simp only [List.set_cons_succ, withoutItems, hothers first (by omega), htail]

/-- The same for a child of any container. -/
theorem without_putChild {value child new : Value} {step : Step} {gone gone' : Address → Bool}
    (hkeyed : value.Keyed) (hchild : value.child? step = some child)
    (hkept : gone [step] = false ∧ gone' [step] = false)
    (hsame : child.without (fun below => gone (step :: below))
      = new.without fun below => gone' (step :: below))
    (hothers : ∀ other, other ≠ step → ∀ below, gone (other :: below) = gone' (other :: below)) :
    value.without gone = (value.putChild step new).without gone' := by
  cases hkeyed with
  | @compound entries hkeys hentries =>
      cases step with
      | key name =>
          have hfound : Compound.get? entries name = some child := hchild
          simp only [putChild, hfound, Option.isSome_some, if_true, without]
          congr 1
          exact withoutEntries_insert hkeys hfound hkept hsame fun other hother =>
            hothers _ fun heq => hother (Step.key.inj heq)
      | index position => cases hchild
  | @list items hitems =>
      cases step with
      | key name => cases hchild
      | index position =>
          have hfound : items[position]? = some child := hchild
          simp only [putChild, without]
          congr 1
          rw [← Nat.zero_add position] at hkept hsame hothers
          exact withoutItems_set hfound hkept hsame fun other hother =>
            hothers _ fun heq => hother (Step.index.inj heq)
  | scalar => cases hchild

/-- What goes below one place may go before what parts from that place. -/
theorem without_put {value old : Value} {place : Address} {gone inside outside : Address → Bool}
    (hkeyed : value.Keyed) (hget : value.get? place = some old) (hroot : inside [] = false)
    (hinside : ∀ below, gone (place ++ below) = inside below)
    (houtside : ∀ a, ¬place <+: a → gone a = outside a)
    (hapart : ∀ a, outside a = true → Address.Disjoint place a) :
    value.without gone = (value.put place (old.without inside)).without outside := by
  induction place generalizing value gone outside with
  | nil =>
      rw [get?_nil] at hget
      obtain rfl := Option.some.inj hget
      have hgone : gone = inside := funext hinside
      have hnone : outside = fun _ => false := by
        funext a
        refine (Bool.not_eq_true _).mp fun ha => ?_
        exact (hapart a ha).1 List.nil_prefix
      rw [put_nil, hgone, hnone, without_false]
  | cons step rest ih =>
      simp only [get?] at hget
      obtain ⟨child, hchild, hget⟩ := Option.bind_eq_some_iff.mp hget
      simp only [put, hchild]
      have houtsideStep : outside [step] = false := by
        refine (Bool.not_eq_true _).mp fun h => (hapart _ h).2 ?_
        exact List.cons_prefix_cons.mpr ⟨rfl, List.nil_prefix⟩
      have hgoneStep : gone [step] = false := by
        cases rest with
        | nil => exact (hinside []).trans hroot
        | cons step' rest =>
            rw [houtside, houtsideStep]
            exact fun hle => absurd hle.length_le (by simp)
      refine without_putChild hkeyed hchild ⟨hgoneStep, houtsideStep⟩ ?_ ?_
      · have hone : value.get? [step] = some child := by simp [get?, hchild]
        refine ih (hkeyed.get? hone) hget hinside (fun a ha => houtside _ ?_) fun a ha => ?_
        · exact fun hle => ha (List.cons_prefix_cons.mp hle).2
        · have hsteps : Address.Disjoint ([step] ++ rest) ([step] ++ a) := hapart _ ha
          exact Address.disjoint_append_left_iff.mp hsteps
      · exact fun other hother below =>
          houtside _ fun hle => hother (List.cons_prefix_cons.mp hle).1.symm

/-- The same for lists of addresses. -/
theorem without_append {value old : Value} {place : Address} {inside outside : List Address}
    (hkeyed : value.Keyed) (hget : value.get? place = some old) (hroot : [] ∉ inside)
    (hapart : ∀ a ∈ outside, Address.Disjoint place a) :
    value.without (inside.map (place ++ ·) ++ outside).contains
      = (value.put place (old.without inside.contains)).without outside.contains := by
  refine without_put hkeyed hget ?_ (fun below => ?_) (fun a ha => ?_) fun a ha => ?_
  · simpa using hroot
  · rw [Bool.eq_iff_iff, List.contains_iff_mem, List.contains_iff_mem, List.mem_append]
    constructor
    · rintro (h | h)
      · obtain ⟨found, hfound, heq⟩ := List.mem_map.mp h
        exact List.append_cancel_left heq ▸ hfound
      · exact absurd (List.prefix_append place below) (hapart _ h).1
    · exact fun h => .inl (List.mem_map_of_mem h)
  · rw [Bool.eq_iff_iff, List.contains_iff_mem, List.contains_iff_mem, List.mem_append]
    constructor
    · rintro (h | h)
      · obtain ⟨found, -, rfl⟩ := List.mem_map.mp h
        exact absurd (List.prefix_append place found) ha
      · exact h
    · exact .inr
  · exact hapart a (List.contains_iff_mem.mp ha)

/-! ## Distinct keys stay distinct -/

theorem keys_withoutEntries_sublist (gone : Address → Bool) (entries : List (String × Value)) :
    (Compound.keys (withoutEntries gone entries)).Sublist (Compound.keys entries) := by
  induction entries with
  | nil => exact List.Sublist.refl _
  | cons entry rest ih =>
      obtain ⟨name, value⟩ := entry
      rw [withoutEntries]
      split
      · exact ih.trans (List.sublist_cons_self name (Compound.keys rest))
      · exact List.Sublist.cons_cons name ih

theorem mem_withoutEntries {gone : Address → Bool} {entries : List (String × Value)}
    {entry : String × Value} (h : entry ∈ withoutEntries gone entries) :
    ∃ value, (entry.1, value) ∈ entries
      ∧ entry.2 = value.without fun below => gone (.key entry.1 :: below) := by
  induction entries with
  | nil => cases h
  | cons first rest ih =>
      obtain ⟨name, value⟩ := first
      rw [withoutEntries] at h
      split at h
      · obtain ⟨value', hvalue', heq⟩ := ih h
        exact ⟨value', List.mem_cons_of_mem _ hvalue', heq⟩
      · rcases List.mem_cons.mp h with rfl | h
        · exact ⟨value, List.mem_cons_self .., rfl⟩
        · obtain ⟨value', hvalue', heq⟩ := ih h
          exact ⟨value', List.mem_cons_of_mem _ hvalue', heq⟩

theorem mem_withoutItems {gone : Address → Bool} {items : List Value} {found : Value} :
    ∀ {first : Nat}, found ∈ withoutItems gone first items →
      ∃ position, ∃ item ∈ items,
        found = item.without fun below => gone (.index position :: below) := by
  induction items with
  | nil => intro first h; cases h
  | cons item rest ih =>
      intro first h
      rw [withoutItems] at h
      split at h
      · obtain ⟨position, other, hother, heq⟩ := ih h
        exact ⟨position, other, List.mem_cons_of_mem _ hother, heq⟩
      · rcases List.mem_cons.mp h with rfl | h
        · exact ⟨first, item, List.mem_cons_self .., rfl⟩
        · obtain ⟨position, other, hother, heq⟩ := ih h
          exact ⟨position, other, List.mem_cons_of_mem _ hother, heq⟩

theorem Keyed.without {value : Value} (h : value.Keyed) :
    ∀ gone : Address → Bool, (value.without gone).Keyed := by
  induction h with
  | compound hkeys _ ih =>
      intro gone
      rw [Value.without]
      refine .compound ((keys_withoutEntries_sublist gone _).nodup hkeys) fun entry hentry => ?_
      obtain ⟨value, hvalue, heq⟩ := mem_withoutEntries hentry
      rw [heq]
      exact ih _ hvalue _
  | list _ ih =>
      intro gone
      rw [Value.without]
      refine .list fun item hitem => ?_
      obtain ⟨position, old, hold, rfl⟩ := mem_withoutItems hitem
      exact ih old hold _
  | scalar =>
      intro gone
      rw [Value.without]
      exact .scalar

end Value

end TreeQuery
