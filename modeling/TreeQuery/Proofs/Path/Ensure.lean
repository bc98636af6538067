import Mathlib
import TreeQuery.Path.Edit
import TreeQuery.Proofs.Path.Locate
import TreeQuery.Proofs.Path.Patterns
import TreeQuery.Proofs.Selector.Ensure

/-!
# Laws of ensuring a path

A tree is settled for selectors when none of them has anything to make, at any of
the locations that the ones before it pick (`Settled`).

Ensuring one more selector keeps the tree settled for the selectors before it, and
they pick the same locations as before (`ensureEach_spec`).  This is so because
whatever is made extends a picked value.  By induction the tree is settled for the
whole path in the end, and the answer is what the path picks in it
(`ensureParentsFrom_spec`).

So ensuring agrees with locating afterwards, whether it succeeds or fails, and to
ensure again changes nothing (`ensure_agrees`).
-/

namespace TreeQuery.Path

/-! ## Settled trees -/

/-- None of the selectors has anything to make below the value. -/
def Settled : List Selector → Value → Prop
  | [], _ => True
  | selector :: rest, value => selector.Settled value
      ∧ ∀ address ∈ selector.locate value, ∀ inner, value.get? address = some inner →
          Settled rest inner

theorem settled_concat {selectors : List Selector} {selector : Selector} {value : Value} :
    Settled (selectors ++ [selector]) value ↔ Settled selectors value
      ∧ ∀ address ∈ picks selectors value, ∀ inner, value.get? address = some inner →
          selector.Settled inner := by
  induction selectors generalizing value with
  | nil => simp [Settled, picks]
  | cons first rest ih =>
      rw [List.cons_append, Settled, Settled]
      constructor
      · rintro ⟨hfirst, hrest⟩
        refine ⟨⟨hfirst, fun a ha x hx => (ih.mp (hrest a ha x hx)).1⟩, ?_⟩
        intro address haddress found hfound
        obtain ⟨above, habove, inner, hinner, below, hbelow, rfl⟩ := mem_picks_cons.mp haddress
        rw [Value.get?_append, hinner, Option.bind_some] at hfound
        exact (ih.mp (hrest above habove inner hinner)).2 below hbelow found hfound
      · rintro ⟨⟨hfirst, hrest⟩, hlast⟩
        refine ⟨hfirst, fun above habove inner hinner => ?_⟩
        refine ih.mpr ⟨hrest above habove inner hinner, ?_⟩
        intro below hbelow found hfound
        refine hlast (above ++ below) ?_ found ?_
        · exact mem_picks_cons.mpr ⟨above, habove, inner, hinner, below, hbelow, rfl⟩
        · rw [Value.get?_append, hinner, Option.bind_some, hfound]

theorem settled_of_append {selectors more : List Selector} {value : Value}
    (h : Settled (selectors ++ more) value) : Settled selectors value := by
  induction selectors generalizing value with
  | nil => trivial
  | cons selector rest ih => exact ⟨h.1, fun a ha inner hinner => ih (h.2 a ha inner hinner)⟩

/-- To extend a picked value keeps the tree settled. -/
theorem settled_put {selectors : List Selector} {value old new : Value} {address : Address}
    (hpick : address ∈ picks selectors value) (hget : value.get? address = some old)
    (hext : new.Extends old) (h : Settled selectors value) :
    Settled selectors (value.put address new) := by
  induction selectors generalizing value address with
  | nil => trivial
  | cons selector rest ih =>
      obtain ⟨first, hfirst, inner, hinner, below, hbelow, rfl⟩ := mem_picks_cons.mp hpick
      rw [Value.get?_append, hinner, Option.bind_some] at hget
      rw [Value.put_append below new hinner]
      have hinnerExt := Value.Extends.put hget hext
      refine ⟨Selector.settled_put hfirst hinner hinnerExt h.1, ?_⟩
      rw [Selector.locate_put hfirst hinner hinnerExt]
      intro other hother found hfound
      by_cases hsame : first = other
      · subst hsame
        rw [Value.get?_put_self _ hinner] at hfound
        obtain rfl := Option.some.inj hfound
        exact ih hbelow hget (h.2 first hfirst inner hinner)
      · have hapart := Selector.disjoint_of_mem_locate hfirst hother hsame
        rw [Value.get?_put_disjoint value _ hapart] at hfound
        exact h.2 other hother found hfound

/-! ## Ensuring one more selector -/

theorem run_ensureEach (selector : Selector) (addresses : List Address) (root : Value)
    (s : Supply) :
    (selector.ensureEach addresses root).run s
      = let outcome := (Value.editEach selector.ensure addresses root).run s
        ((outcome.1.1, outcome.1.2.flatMap fun answer => answer.2.map (answer.1 ++ ·)),
          outcome.2) := rfl

/-- The tree is settled for one more selector afterwards, and the answer is what is
picked with it.  The selectors before it pick the same as before. -/
theorem ensureEach_spec {done : List Selector} {selector : Selector} {root : Value}
    (hcopy : selector.Copyable) (hdone : Settled done root) (s : Supply) :
    Settled (done ++ [selector]) ((selector.ensureEach (picks done root) root).run s).1.1
      ∧ ((selector.ensureEach (picks done root) root).run s).1.2
          = picks (done ++ [selector]) ((selector.ensureEach (picks done root) root).run s).1.1
      ∧ picks done ((selector.ensureEach (picks done root) root).run s).1.1
          = picks done root := by
  have hput : ∀ tree, Settled done tree ∧ picks done tree = picks done root →
      ∀ a ∈ picks done root, ∀ old, tree.get? a = some old → ∀ s : Supply,
        Settled done (tree.put a ((selector.ensure old).run s).1.1)
          ∧ picks done (tree.put a ((selector.ensure old).run s).1.1) = picks done root := by
    intro tree htree a ha old hold s
    have hext := (Selector.ensure_spec hcopy old s).grown
    rw [← htree.2] at ha
    exact ⟨settled_put ha hold hext htree.1, (picks_put ha hold hext).trans htree.2⟩
  obtain ⟨hsettled, hpicks⟩ := Value.editEach_keeps hput ⟨hdone, rfl⟩ s
  have hstep : ∀ a ∈ picks done root, ∃ old, root.get? a = some old ∧ ∀ s : Supply, True →
      selector.Ensured old ((selector.ensure old).run s).1.1 ((selector.ensure old).run s).1.2
        ∧ True := by
    intro a ha
    obtain ⟨old, hold⟩ := get?_of_mem_picks ha
    exact ⟨old, hold, fun s _ => ⟨Selector.ensure_spec hcopy old s, trivial⟩⟩
  obtain ⟨hedited, -⟩ := Value.editEach_apart (pairwise_disjoint_picks done root) hstep s trivial
  rw [run_ensureEach]
  generalize (Value.editEach selector.ensure (picks done root) root).run s = outcome
    at hsettled hpicks hedited
  obtain ⟨⟨grown, answers⟩, s'⟩ := outcome
  dsimp only at hsettled hpicks hedited ⊢
  refine ⟨settled_concat.mpr ⟨hsettled, ?_⟩, ?_, hpicks⟩
  · intro address haddress found hfound
    rw [hpicks, ← hedited.places] at haddress
    obtain ⟨answer, hanswer, rfl⟩ := List.mem_map.mp haddress
    obtain ⟨old, new, -, hnew, hensured⟩ := hedited.each answer hanswer
    obtain rfl := Option.some.inj (hnew.symm.trans hfound)
    exact hensured.settled
  · rw [picks_concat, hpicks, ← hedited.places, locateEach_eq_flatMap, List.flatMap_map]
    refine List.flatMap_congr fun answer hanswer => ?_
    obtain ⟨old, new, -, hnew, hensured⟩ := hedited.each answer hanswer
    rw [Value.searchAt_of_get? _ hnew, hensured.picked]

/-- In a settled tree nothing is made, and the answer is what is picked. -/
theorem ensureEach_of_settled {done : List Selector} {selector : Selector} {root : Value}
    (h : Settled (done ++ [selector]) root) (s : Supply) :
    (selector.ensureEach (picks done root) root).run s
      = ((root, picks (done ++ [selector]) root), s) := by
  have hstep : ∀ a ∈ picks done root, ∃ old, root.get? a = some old ∧ ∀ s' : Supply, s' = s →
      ((selector.ensure old).run s').1 = (old, (root.get? a).elim [] selector.locate)
        ∧ ((selector.ensure old).run s').2 = s := by
    intro a ha
    obtain ⟨old, hold⟩ := get?_of_mem_picks ha
    refine ⟨old, hold, fun s' hs' => ?_⟩
    rw [Selector.ensure_of_settled ((settled_concat.mp h).2 a ha old hold), hold]
    exact ⟨rfl, hs'⟩
  obtain ⟨hrun, hstate⟩ := Value.editEach_of_unchanged hstep s rfl
  rw [run_ensureEach]
  dsimp only
  rw [hrun, hstate, picks_concat, locateEach_eq_flatMap, List.flatMap_map]
  rfl

/-- From sites ensuring goes on to sites. -/
theorem ensureEach_sites (selector : Selector) {addresses : List Address} {root : Value}
    (h : root.Sites addresses) (s : Supply) :
    ((selector.ensureEach addresses root).run s).1.1.Sites
      ((selector.ensureEach addresses root).run s).1.2 := by
  have hstep : ∀ a ∈ addresses, ∃ old, root.get? a = some old ∧ ∀ s : Supply, True →
      ((selector.ensure old).run s).1.1.Sites ((selector.ensure old).run s).1.2 ∧ True := by
    intro a ha
    obtain ⟨old, hold⟩ := h.there a ha
    exact ⟨old, hold, fun s _ => ⟨Selector.ensure_sites selector old s, trivial⟩⟩
  have hedited : Value.EditedEach (fun _ new picked => new.Sites picked) addresses root
      ((Value.editEach selector.ensure addresses root).run s).1.1
      ((Value.editEach selector.ensure addresses root).run s).1.2 :=
    (Value.editEach_apart h.apart hstep s trivial).1
  rw [run_ensureEach]
  generalize (Value.editEach selector.ensure addresses root).run s = outcome at hedited
  obtain ⟨⟨grown, answers⟩, s'⟩ := outcome
  dsimp only at hedited ⊢
  constructor
  · refine Address.carries_disjoint.pairwise_flatMap ?_ fun answer hanswer => ?_
    · rw [hedited.places]
      exact h.apart
    · obtain ⟨old, new, -, -, hsites⟩ := hedited.each answer hanswer
      exact hsites.apart
  · intro a ha
    obtain ⟨answer, hanswer, ha⟩ := List.mem_flatMap.mp ha
    obtain ⟨below, hbelow, rfl⟩ := List.mem_map.mp ha
    obtain ⟨old, new, -, hnew, hsites⟩ := hedited.each answer hanswer
    obtain ⟨found, hfound⟩ := hsites.there below hbelow
    exact ⟨found, by rw [Value.get?_append, hnew, Option.bind_some, hfound]⟩

/-! ## Ensuring all selectors but the last -/

/-- One step of ensuring the parents of what a path picks.  The supply does not
matter in what follows. -/
theorem ensureParentsFrom_cons (ordinal : Nat) (selector last : Selector)
    (rest : List Selector) (found : List Address) (root : Value) :
    ∃ s : Supply, ensureParentsFrom ordinal (selector :: (rest ++ [last])) found root
      = match ((selector.ensureEach found root).run s).1 with
        | (grown, []) => (grown, .error ordinal)
        | (grown, picked) => ensureParentsFrom (ordinal + 1) (rest ++ [last]) picked grown := by
  cases rest with
  | nil =>
      refine ⟨Supply.always last.container, ?_⟩
      rw [List.nil_append, ensureParentsFrom]
      generalize (selector.ensureEach found root).run (Supply.always last.container) = outcome
      obtain ⟨⟨grown, picked⟩, s⟩ := outcome
      cases picked <;> rfl
  | cons next rest =>
      refine ⟨Supply.always next.container, ?_⟩
      rw [List.cons_append, ensureParentsFrom]
      generalize (selector.ensureEach found root).run (Supply.always next.container) = outcome
      obtain ⟨⟨grown, picked⟩, s⟩ := outcome
      cases picked <;> rfl

/-- The parents that ensuring finds are sites of the tree it leaves. -/
theorem ensureParentsFrom_sites {selectors : List Selector} {last : Selector} :
    ∀ {ordinal : Nat} {found parents : List Address} {root grown : Value}, root.Sites found →
      ensureParentsFrom ordinal (selectors ++ [last]) found root = (grown, .ok parents) →
        grown.Sites parents := by
  induction selectors with
  | nil =>
      intro ordinal found parents root grown hsites h
      obtain ⟨rfl, hfound⟩ := Prod.mk.inj h
      obtain rfl := Except.ok.inj hfound
      exact hsites
  | cons selector rest ih =>
      intro ordinal found parents root grown hsites h
      obtain ⟨s, hstep⟩ := ensureParentsFrom_cons ordinal selector last rest found root
      have hnext := ensureEach_sites selector hsites s
      rw [List.cons_append, hstep] at h
      generalize ((selector.ensureEach found root).run s).1 = outcome at h hnext
      obtain ⟨tree, picked⟩ := outcome
      cases picked with
      | nil => cases (Prod.mk.inj h).2
      | cons first others => exact ih hnext h

/-- How ensuring the parents can end, when some selectors have been ensured
before. -/
inductive ParentsEnsured (done parents : List Selector) (ordinal : Nat) (grown : Value) :
    Except Nat (List Address) → Prop where
  /-- The tree is settled for them, and they pick something. -/
  | ok {found : List Address} : Settled (done ++ parents) grown →
      found = picks (done ++ parents) grown → found ≠ [] →
      ParentsEnsured done parents ordinal grown (.ok found)
  /-- One of them picks nothing. -/
  | error {before after : List Selector} {selector : Selector} {failed : Nat} :
      parents = before ++ selector :: after → failed = ordinal + before.length →
      picks (done ++ before) grown ≠ [] → picks (done ++ before ++ [selector]) grown = [] →
      ParentsEnsured done parents ordinal grown (.error failed)

theorem ParentsEnsured.cons {done parents : List Selector} {selector : Selector} {ordinal : Nat}
    {grown : Value} {outcome : Except Nat (List Address)}
    (h : ParentsEnsured (done ++ [selector]) parents (ordinal + 1) grown outcome) :
    ParentsEnsured done (selector :: parents) ordinal grown outcome := by
  have hassoc : ∀ more, done ++ [selector] ++ more = done ++ selector :: more := by simp
  cases h with
  | ok hsettled hfound hne =>
      rw [hassoc] at hsettled hfound
      exact .ok hsettled hfound hne
  | @error before after failed number hsplit hnumber hne hnil =>
      rw [hassoc] at hne hnil
      have hsplit' : selector :: parents = (selector :: before) ++ failed :: after := by
        rw [hsplit, List.cons_append]
      refine .error hsplit' ?_ hne hnil
      rw [hnumber, List.length_cons]
      omega

/-- Ensuring the parents ends in one of these ways. -/
theorem ensureParentsFrom_spec {parents : List Selector} {last : Selector} :
    ∀ {done : List Selector} {root : Value} (ordinal : Nat),
      (∀ selector ∈ parents, selector.Copyable) → Settled done root → picks done root ≠ [] →
        ParentsEnsured done parents ordinal
          (ensureParentsFrom ordinal (parents ++ [last]) (picks done root) root).1
          (ensureParentsFrom ordinal (parents ++ [last]) (picks done root) root).2 := by
  induction parents with
  | nil =>
      intro done root ordinal _ hdone hne
      have hnil : done ++ [] = done := List.append_nil done
      refine ParentsEnsured.ok ?_ ?_ hne
      · rw [hnil]
        exact hdone
      · rw [hnil]
        rfl
  | cons selector rest ih =>
      intro done root ordinal hcopy hdone hne
      obtain ⟨hselector, hrest⟩ := List.forall_mem_cons.mp hcopy
      obtain ⟨s, hstep⟩ :=
        ensureParentsFrom_cons ordinal selector last rest (picks done root) root
      obtain ⟨hsettled, hpicked, hpicks⟩ := ensureEach_spec hselector hdone s
      rw [List.cons_append, hstep]
      generalize ((selector.ensureEach (picks done root) root).run s).1 = outcome
        at hsettled hpicked hpicks
      obtain ⟨grown, picked⟩ := outcome
      dsimp only at hsettled hpicked hpicks
      cases picked with
      | nil =>
          have hdoneNil : done ++ [] = done := List.append_nil done
          refine ParentsEnsured.error (List.nil_append _).symm rfl ?_ ?_
          · rw [hdoneNil, hpicks]
            exact hne
          · rw [hdoneNil, ← hpicked]
      | cons first others =>
          dsimp only
          rw [hpicked]
          refine ParentsEnsured.cons (ih (ordinal + 1) hrest hsettled ?_)
          rw [← hpicked]
          exact List.cons_ne_nil first others

/-- In a settled tree nothing is made for the parents. -/
theorem ensureParentsFrom_of_settled {parents : List Selector} {last : Selector} {root : Value} :
    ∀ {done : List Selector} (ordinal : Nat), Settled (done ++ parents) root →
      picks (done ++ parents) root ≠ [] →
        ensureParentsFrom ordinal (parents ++ [last]) (picks done root) root
          = (root, .ok (picks (done ++ parents) root)) := by
  induction parents with
  | nil =>
      intro done ordinal _ _
      rw [List.append_nil]
      rfl
  | cons selector rest ih =>
      intro done ordinal hsettled hne
      have hassoc : done ++ selector :: rest = done ++ [selector] ++ rest := by simp
      rw [hassoc] at hsettled hne ⊢
      obtain ⟨s, hstep⟩ :=
        ensureParentsFrom_cons ordinal selector last rest (picks done root) root
      have hfirst : Settled (done ++ [selector]) root := settled_of_append hsettled
      rw [List.cons_append, hstep, ensureEach_of_settled hfirst]
      dsimp only
      split
      · next hnil =>
        obtain ⟨-, hnil⟩ := Prod.mk.inj hnil
        rw [picks_append, hnil] at hne
        exact absurd rfl hne
      · next heq =>
        obtain ⟨rfl, rfl⟩ := Prod.mk.inj heq
        exact ih (ordinal + 1) hsettled hne

theorem ensureParents_of_nil {path : Path} (h : path.selectors = []) (root : Value) :
    path.ensureParents root = (root, .ok [[]]) := by
  rw [ensureParents, h]
  rfl

theorem ensureParents_eq_ok {path : Path} {root grown : Value} {parents : List Address} :
    path.ensureParents root = (grown, .ok parents)
      ↔ ensureParentsFrom 0 path.selectors [[]] root = (grown, .ok parents) := by
  rw [ensureParents]
  generalize ensureParentsFrom 0 path.selectors [[]] root = outcome
  obtain ⟨tree, failed | found⟩ := outcome
  · simp [Except.mapError]
  · simp [Except.mapError]

theorem ensureParents_sites {path : Path} {root grown : Value} {parents : List Address}
    (h : path.ensureParents root = (grown, .ok parents)) : grown.Sites parents := by
  have hroot : root.Sites [[]] := Value.sites_singleton (Value.get?_nil root)
  rcases path.selectors_cases with hnil | ⟨selectors, last, hselectors⟩
  · rw [ensureParents_of_nil hnil] at h
    obtain ⟨rfl, hparents⟩ := Prod.mk.inj h
    obtain rfl := Except.ok.inj hparents
    exact hroot
  · rw [ensureParents_eq_ok, hselectors] at h
    exact ensureParentsFrom_sites hroot h

/-- When the parents are found, the tree is settled for them. -/
theorem ensureParents_spec {path : Path} {selectors : List Selector} {last : Selector}
    (hselectors : path.selectors = selectors ++ [last])
    (hcopy : ∀ selector ∈ selectors, selector.Copyable) {root grown : Value}
    {parents : List Address} (h : path.ensureParents root = (grown, .ok parents)) :
    Settled selectors grown ∧ parents = picks selectors grown ∧ parents ≠ [] := by
  have hspec :=
    @ensureParentsFrom_spec selectors last [] root 0 hcopy trivial (List.cons_ne_nil _ _)
  rw [ensureParents_eq_ok, hselectors] at h
  rw [picks, h] at hspec
  cases hspec with
  | ok hsettled hfound hne => exact ⟨hsettled, hfound, hne⟩

/-! ## Ensuring the whole path -/

/-- How ensuring a path can end. -/
inductive Ensured (path : Path) (grown : Value) : Except NotFound (List Address) → Prop where
  /-- The tree is settled for the path, and the answer is what the path picks. -/
  | ok {found : List Address} : Settled path.selectors grown →
      found = picks path.selectors grown → picks path.selectors.dropLast grown ≠ [] →
      Ensured path grown (.ok found)
  /-- One of the selectors but the last picks nothing. -/
  | error {before after : List Selector} {selector : Selector} :
      path.selectors = before ++ selector :: after → picks before grown ≠ [] →
      picks (before ++ [selector]) grown = [] →
      Ensured path grown (.error (path.notFound before.length))

theorem run_ensure {path : Path} {parents : List Selector} {last : Selector}
    (h : path.selectors = parents ++ [last]) (root : Value) (supply : Supply) :
    (path.ensure root).run supply = match ensureParentsFrom 0 path.selectors [[]] root with
      | (grown, .error ordinal) => ((grown, .error (path.notFound ordinal)), supply)
      | (grown, .ok found) =>
          let outcome := (last.ensureEach found grown).run supply
          ((outcome.1.1, .ok outcome.1.2), outcome.2) := by
  have hlast : path.selectors.getLast? = some last := by
    rw [h, List.getLast?_concat]
  rw [ensure, ensureParents, hlast]
  generalize ensureParentsFrom 0 path.selectors [[]] root = outcome
  obtain ⟨grown, found | ordinal⟩ := outcome
  · rfl
  · rfl

theorem run_ensure_of_nil {path : Path} (h : path.selectors = []) (root : Value)
    (supply : Supply) : (path.ensure root).run supply = ((root, .ok [[]]), supply) := by
  rw [ensure, h]
  generalize path.ensureParents root = outcome
  obtain ⟨grown, failure | found⟩ := outcome
  · rfl
  · rfl

/-- Ensuring a path whose patterns accept their copies ends in one of these ways. -/
theorem ensure_spec {path : Path} (hcopy : ∀ selector ∈ path.selectors, selector.Copyable)
    (root : Value) (supply : Supply) :
    Ensured path ((path.ensure root).run supply).1.1 ((path.ensure root).run supply).1.2 := by
  rcases path.selectors_cases with hnil | ⟨parents, last, hselectors⟩
  · rw [run_ensure_of_nil hnil]
    refine .ok ?_ ?_ ?_
    · rw [hnil]
      trivial
    · rw [hnil]
      rfl
    · rw [hnil]
      exact List.cons_ne_nil _ _
  · have hcopies : (∀ selector ∈ parents, selector.Copyable) ∧ last.Copyable := by
      rw [hselectors] at hcopy
      exact ⟨fun selector hmem => hcopy selector (List.mem_append_left _ hmem),
        hcopy last (List.mem_append_right _ (List.mem_singleton_self last))⟩
    have hparents : ParentsEnsured [] parents 0 (ensureParentsFrom 0 path.selectors [[]] root).1
        (ensureParentsFrom 0 path.selectors [[]] root).2 := by
      rw [hselectors]
      exact @ensureParentsFrom_spec parents last [] root 0 hcopies.1 trivial (List.cons_ne_nil _ _)
    rw [run_ensure hselectors]
    generalize ensureParentsFrom 0 path.selectors [[]] root = outcome at hparents
    obtain ⟨grown, failed | found⟩ := outcome
    · cases hparents with
      | @error before after selector _ hsplit hnumber hne hnil =>
          have hsplit' : path.selectors = before ++ selector :: (after ++ [last]) := by
            rw [hselectors, hsplit, List.append_assoc, List.cons_append]
          rw [hnumber, Nat.zero_add]
          exact .error hsplit' hne hnil
    · cases hparents with
      | ok hsettled hfound hne =>
          obtain ⟨hsettled', hpicked, hpicks⟩ := ensureEach_spec hcopies.2 hsettled supply
          dsimp only at hfound ⊢
          rw [hfound] at hne ⊢
          rw [← hpicks] at hne
          rw [List.nil_append] at hsettled' hpicked hne
          refine .ok ?_ ?_ ?_
          · rw [hselectors]
            exact hsettled'
          · rw [hselectors]
            exact hpicked
          · rw [hselectors, List.dropLast_concat]
            exact hne

/-! ## Ensuring and locating -/

theorem Ensured.locate {path : Path} {grown : Value} {found : List Address}
    (h : Ensured path grown (.ok found)) (hne : found ≠ []) : path.locate grown = .ok found := by
  cases h with
  | ok hsettled hfound hparents =>
      rw [hfound] at hne ⊢
      rw [Path.locate, locateFrom_of_picks hne]
      rfl

theorem Ensured.locate_error {path : Path} {grown : Value} {failure : NotFound}
    (h : Ensured path grown (.error failure)) : path.locate grown = .error failure := by
  cases h with
  | error hsplit hne hnil => exact locate_of_picks_nil hsplit hne hnil

theorem Ensured.count {path : Path} {grown : Value} {found : List Address}
    (h : Ensured path grown (.ok found)) : path.count grown = found.length := by
  cases h with
  | ok hsettled hfound hparents => rw [count_eq_length_picks, hfound]

/-- To ensure again makes nothing and takes nothing from the supply. -/
theorem Ensured.again {path : Path} {grown : Value} {found : List Address}
    (h : Ensured path grown (.ok found)) (supply : Supply) :
    (path.ensure grown).run supply = ((grown, .ok found), supply) := by
  cases h with
  | ok hsettled hfound hparents =>
      rcases path.selectors_cases with hnil | ⟨parents, last, hselectors⟩
      · rw [hnil] at hfound
        rw [hfound, run_ensure_of_nil hnil]
        rfl
      · rw [hselectors] at hsettled hfound
        rw [hselectors, List.dropLast_concat] at hparents
        have hrun : ensureParentsFrom 0 path.selectors [[]] grown
            = (grown, .ok (picks parents grown)) := by
          rw [hselectors]
          exact @ensureParentsFrom_of_settled parents last grown [] 0
            (settled_of_append hsettled) hparents
        rw [run_ensure hselectors, hrun]
        dsimp only
        rw [ensureEach_of_settled hsettled, hfound]

/-- After a path was ensured, locating it agrees with the answer.  If ensuring
succeeded, the path has as many locations as the answer, and finds the same ones in
the same order if there are any.  To ensure again, with any supply, gives the same
answer and changes nothing.  If ensuring failed, locating fails at the same
selector. -/
theorem ensure_agrees {text : String} {limit : Nat} {path : Path}
    (hparse : parse text limit = .ok path) (hnumbers : path.isNaNFree = true)
    (root grown : Value) (supply supply' : Supply) (outcome : Except NotFound (List Address))
    (hensure : (path.ensure root).run supply = ((grown, outcome), supply')) :
    match outcome with
    | .ok found => path.count grown = found.length
        ∧ (found ≠ [] → path.locate grown = .ok found)
        ∧ ∀ fresh : Supply, (path.ensure grown).run fresh = ((grown, .ok found), fresh)
    | .error failure => path.get grown = .error failure := by
  have hensured := ensure_spec (copyable_of_parse hparse hnumbers) root supply
  rw [hensure] at hensured
  cases outcome with
  | ok found => exact ⟨hensured.count, hensured.locate, hensured.again⟩
  | error failure =>
      dsimp only
      rw [Path.get, hensured.locate_error]
      rfl

/-- Nothing of `a[{b:1}].c` is there, and the element that is made has what the
filter asks for. -/
theorem ensure_agrees_in_empty :
    let path : Path := ⟨"a[{b:1}].c", [⟨.child "a", 1⟩,
      ⟨.elementsMatching [("b", .scalar (.int 1))], 8⟩, ⟨.child "c", 10⟩]⟩
    let grown : Value := .compound [("a", .list [.compound [("b", .scalar (.int 1)),
      ("c", .scalar (.bool true))]])]
    parse path.text = .ok path ∧ path.isNaNFree = true ∧ path.count grown = 1
      ∧ path.locate grown = .ok [[.key "a", .index 0, .key "c"]] := by
  intro path grown
  have hparse : parse path.text = .ok path := by cbv
  have hrun : (path.ensure (.compound [])).run (.always (.scalar (.bool true)))
      = ((grown, .ok [[.key "a", .index 0, .key "c"]]),
        ⟨fun _ => .scalar (.bool true), 1⟩) := rfl
  have hagrees := ensure_agrees hparse rfl _ _ _ _ _ hrun
  exact ⟨hparse, rfl, hagrees.1, hagrees.2.1 (List.cons_ne_nil _ _)⟩

end TreeQuery.Path
