import Lockstep.Lane.Basic

set_option autoImplicit false

/-! # Watch windows

A watch window shows variables by their names and follows the changes that are reported. What it should
show of a lane is its scene: the input and the identifiers that are in scope, with their values. A
window that shows a scene can follow each report of an identifier that is dropped (`Scene.Shown.drop`)
or assigned (`Scene.Shown.assign`), and shows the scene that results. Names may be left aside. -/

namespace Lockstep

/-- What a watch window shows under each name. -/
def Watch := String → Option Variable

namespace Watch

/-- A window that shows nothing. -/
def blank : Watch := fun _ => none

/-- Show something else under a name. -/
def put (w : Watch) (name : String) (v : Option Variable) : Watch :=
  fun n => if n = name then v else w n

/-- A change fits what a window shows, and makes another window of it. -/
inductive Takes : Watch → Change → Watch → Prop
  | created {w : Watch} {v : Variable} (h : w v.name = none) :
      Takes w (.created v) (w.put v.name (some v))
  | updated {w : Watch} {before after : Variable} (h : w after.name = some before) :
      Takes w (.updated before after) (w.put after.name (some after))
  | removed {w : Watch} {v : Variable} (h : (w v.name).isSome) :
      Takes w (.removed v) (w.put v.name none)

/-- All changes in turn fit a window, apart from those of names that are left aside. -/
inductive Follows (aside : String → Prop) : Watch → List Change → Watch → Prop
  | nil {w : Watch} : Follows aside w [] w
  | skip {w w' : Watch} {c : Change} {cs : List Change} (hc : aside c.name)
      (h : Follows aside w cs w') : Follows aside w (c :: cs) w'
  | take {w w₁ w' : Watch} {c : Change} {cs : List Change} (hc : ¬ aside c.name)
      (htakes : w.Takes c w₁) (h : Follows aside w₁ cs w') : Follows aside w (c :: cs) w'

variable {aside : String → Prop} {w w₁ w' : Watch}

theorem Follows.append {cs cs' : List Change} (h : w.Follows aside cs w₁)
    (h' : w₁.Follows aside cs' w') : w.Follows aside (cs ++ cs') w' := by
  induction h with
  | nil => exact h'
  | skip hc _ ih => exact .skip hc (ih h')
  | take hc htakes _ ih => exact .take hc htakes (ih h')

theorem put_self (w : Watch) (name : String) (v : Option Variable) : w.put name v name = v :=
  if_pos rfl

theorem put_of_ne (w : Watch) {name n : String} (v : Option Variable) (h : n ≠ name) :
    w.put name v n = w n :=
  if_neg h

/-- The names that are shown after a change, if it fits them. -/
def namesAfter? (shown : List String) (c : Change) : Option (List String) :=
  match c.before, c.after with
  | none, some v => if v.name ∈ shown then none else some (v.name :: shown)
  | some _, some v => if v.name ∈ shown then some shown else none
  | some v, none => if v.name ∈ shown then some (shown.filter (· ≠ v.name)) else none
  | none, none => none

/-- The names that are shown after changes, if all of them fit, apart from those of names that are left
    aside. -/
def namesShown? (aside : String → Prop) [DecidablePred aside] (shown : List String)
    (cs : List Change) : Option (List String) :=
  cs.foldlM (fun shown c => if aside c.name then some shown else namesAfter? shown c) shown

theorem Takes.names {c : Change} {shown : List String} (hshown : ∀ n, (w n).isSome ↔ n ∈ shown)
    (h : w.Takes c w') :
    ∃ shown', namesAfter? shown c = some shown' ∧ ∀ n, (w' n).isSome ↔ n ∈ shown' := by
  cases h with
  | @created v h =>
      have hv : v.name ∉ shown := by rw [← hshown, h]; simp
      refine ⟨v.name :: shown, if_neg hv, fun n => ?_⟩
      rw [List.mem_cons, ← hshown]
      by_cases hn : n = v.name
      · simp [put, hn]
      · simp [put, hn]
  | @updated before after h =>
      have hv : after.name ∈ shown := by rw [← hshown, h]; rfl
      refine ⟨shown, if_pos hv, fun n => ?_⟩
      rw [← hshown]
      by_cases hn : n = after.name
      · simp [put, hn, h]
      · simp [put, hn]
  | @removed v h =>
      have hv : v.name ∈ shown := (hshown _).1 h
      refine ⟨shown.filter (· ≠ v.name), if_pos hv, fun n => ?_⟩
      rw [List.mem_filter, ← hshown]
      by_cases hn : n = v.name
      · simp [put, hn]
      · simp [put, hn]

/-- A window that has followed changes shows variables under the names that the changes leave. -/
theorem Follows.names [DecidablePred aside] {cs : List Change} {shown : List String}
    (hshown : ∀ n, (w n).isSome ↔ n ∈ shown) (h : w.Follows aside cs w') :
    ∃ shown', namesShown? aside shown cs = some shown' ∧ ∀ n, (w' n).isSome ↔ n ∈ shown' := by
  induction h generalizing shown with
  | nil => exact ⟨shown, rfl, hshown⟩
  | skip hc _ ih =>
      rw [namesShown?, List.foldlM_cons, if_pos hc]
      exact ih hshown
  | take hc htakes _ ih =>
      obtain ⟨shown₁, hshown₁, hnames⟩ := htakes.names hshown
      rw [namesShown?, List.foldlM_cons, if_neg hc, hshown₁]
      exact ih hnames

end Watch

/-! ## Scenes -/

/-- The input of a lane, the values that its identifiers have, and which of these are in scope. -/
@[ext]
structure Scene where
  input : Variable
  value : Id → Option Variable
  live : Id → Prop

/-- Each identifier has one name, and no two have the same. -/
structure Distinct (names : Id → String → Prop) : Prop where
  id_eq : ∀ {id id' n}, names id n → names id' n → id' = id
  name_eq : ∀ {id n n'}, names id n → names id n' → n' = n

namespace Scene

/-- An identifier goes out of scope. -/
def drop (c : Scene) (id : Id) : Scene := { c with live := fun x => c.live x ∧ x ≠ id }

/-- Identifiers go out of scope. -/
def dropAll (c : Scene) (ids : List Id) : Scene := ids.foldl drop c

/-- An identifier gets a value. Its scope stays as it is. -/
def set (c : Scene) (id : Id) (v : Variable) : Scene :=
  { c with value := fun x => if x = id then some v else c.value x }

/-- An identifier comes into scope. -/
def raise (c : Scene) (id : Id) : Scene := { c with live := fun x => c.live x ∨ x = id }

/-- The scene with other identifiers in scope. -/
def within (c : Scene) (live : Id → Prop) : Scene := { c with live }

theorem live_dropAll (c : Scene) (ids : List Id) (x : Id) :
    (c.dropAll ids).live x ↔ c.live x ∧ x ∉ ids := by
  induction ids generalizing c with
  | nil => simp [dropAll]
  | cons id ids ih =>
      rw [dropAll, List.foldl_cons]
      exact (ih _).trans (by simp [drop, and_assoc])

theorem value_dropAll (c : Scene) (ids : List Id) :
    (c.dropAll ids).value = c.value ∧ (c.dropAll ids).input = c.input := by
  induction ids generalizing c with
  | nil => exact ⟨rfl, rfl⟩
  | cons id ids ih => exact ih (c.drop id)

/-- The change that an assignment is reported as. -/
def assignment (c : Scene) (id : Id) (v : Variable) : Change :=
  match c.value id with
  | some before => .updated before v
  | none => .created v

/-- The names of an identifier are left aside. -/
def Hides (names : Id → String → Prop) (aside : String → Prop) (id : Id) : Prop :=
  ∀ n, names id n → aside n

/-- A watch window shows a scene: values are shown under their own names, which are those of their
    identifiers. -/
structure Shown (names : Id → String → Prop) (aside : String → Prop) (c : Scene) (w : Watch) :
    Prop where
  named : ∀ {id v}, c.value id = some v →
    names id v.name ∨ aside v.name ∧ Hides names aside id
  valued : ∀ {id}, c.live id → (c.value id).isSome
  input : ∀ id, ¬ names id c.input.name
  shows : ∀ {n v}, ¬ aside n →
    (w n = some v ↔ v.name = n ∧ (v = c.input ∨ ∃ id, c.live id ∧ c.value id = some v))

variable {names : Id → String → Prop} {aside : String → Prop} {c : Scene} {w : Watch} {id : Id}
  {v before : Variable}

namespace Shown

theorem name (h : c.Shown names aside w) (hv : c.value id = some v) (hname : ¬ aside v.name) :
    names id v.name :=
  (h.named hv).resolve_right fun haside => hname haside.1

/-- A name of an identifier that is not in scope shows nothing. -/
theorem eq_none (hd : Distinct names) (h : c.Shown names aside w) {n : String} (hid : names id n)
    (hn : ¬ aside n) (hlive : ¬ c.live id) : w n = none := by
  cases hw : w n with
  | none => rfl
  | some v =>
      obtain ⟨rfl, rfl | ⟨id', hlive', hv⟩⟩ := (h.shows hn).1 hw
      · exact absurd hid (h.input id)
      · obtain rfl := hd.id_eq hid (h.name hv hn)
        exact absurd hlive' hlive

/-- The report of the input, before anything else has a value. -/
theorem of_input (hinput : ∀ id, ¬ names id c.input.name) (hvalue : ∀ id, c.value id = none)
    (hlive : ∀ id, ¬ c.live id) :
    ∃ w, Watch.blank.Follows aside [.created c.input] w ∧ c.Shown names aside w := by
  have hnamed : ∀ {id v}, c.value id = some v → names id v.name ∨ aside v.name ∧ Hides names aside id := by
    intro id v hv
    rw [hvalue] at hv
    cases hv
  have honly : ∀ v, (v = c.input ∨ ∃ id, c.live id ∧ c.value id = some v) ↔ v = c.input :=
    fun v => or_iff_left fun ⟨id, hid, _⟩ => hlive id hid
  by_cases hname : aside c.input.name
  · refine ⟨_, .skip hname .nil, hnamed, fun h => absurd h (hlive _), hinput, fun {n v} hn => ?_⟩
    rw [honly]
    constructor
    · rintro ⟨⟩
    · rintro ⟨rfl, rfl⟩
      exact absurd hname hn
  · refine ⟨_, .take hname (.created rfl) .nil, hnamed, fun h => absurd h (hlive _), hinput,
      fun {n v} hn => ?_⟩
    rw [honly]
    by_cases hnv : n = c.input.name
    · subst hnv
      rw [Watch.put_self]
      constructor
      · rintro ⟨⟩
        exact ⟨rfl, rfl⟩
      · rintro ⟨-, rfl⟩
        rfl
    · rw [Watch.put_of_ne _ _ hnv]
      constructor
      · rintro ⟨⟩
      · rintro ⟨rfl, rfl⟩
        exact absurd rfl hnv

/-- The report of an identifier that is dropped. -/
theorem drop (hd : Distinct names) (h : c.Shown names aside w) (hlive : c.live id)
    (hv : c.value id = some v) :
    ∃ w', w.Follows aside [.removed v] w' ∧ (c.drop id).Shown names aside w' := by
  by_cases hname : aside v.name
  · refine ⟨w, .skip hname .nil, h.named, fun h' => h.valued h'.1, h.input, fun {n v'} hn => ?_⟩
    rw [h.shows hn]
    refine and_congr_right fun hv' => or_congr_right (exists_congr fun x => ?_)
    refine and_congr_left fun hx => ⟨fun hlive => ⟨hlive, ?_⟩, And.left⟩
    rintro rfl
    obtain rfl := Option.some.inj (hv.symm.trans hx)
    exact hn (hv' ▸ hname)
  · have hw : w v.name = some v := (h.shows hname).2 ⟨rfl, .inr ⟨id, hlive, hv⟩⟩
    refine ⟨w.put v.name none, .take hname (.removed (by rw [hw]; rfl)) .nil, h.named,
      fun h' => h.valued h'.1, h.input, fun {n v'} hn => ?_⟩
    by_cases hnv : n = v.name
    · subst hnv
      rw [Watch.put_self]
      constructor
      · rintro ⟨⟩
      · rintro ⟨hv', rfl | ⟨x, ⟨-, hx⟩, hvx⟩⟩
        · exact absurd (hv' ▸ h.name hv hname) (h.input id)
        · exact absurd (hd.id_eq (h.name hv hname) (hv' ▸ h.name hvx (hv' ▸ hname))) hx
    · rw [Watch.put_of_ne _ _ hnv, h.shows hn]
      refine and_congr_right fun hv' => or_congr_right (exists_congr fun x => ?_)
      refine and_congr_left fun hx => ⟨fun hlive => ⟨hlive, ?_⟩, And.left⟩
      rintro rfl
      obtain rfl := Option.some.inj (hv.symm.trans hx)
      exact hnv hv'.symm

/-- The reports of several identifiers that are dropped. -/
theorem dropAll (hd : Distinct names) (h : c.Shown names aside w) {ids : List Id} (hids : ids.Nodup)
    {value : Id → Variable} (hlive : ∀ id ∈ ids, c.live id ∧ c.value id = some (value id)) :
    ∃ w', w.Follows aside (ids.map fun id => .removed (value id)) w' ∧
      (c.dropAll ids).Shown names aside w' := by
  induction ids generalizing c w with
  | nil => exact ⟨w, .nil, h⟩
  | cons id ids ih =>
      obtain ⟨hid, hids⟩ := List.nodup_cons.1 hids
      obtain ⟨hl, hv⟩ := hlive id List.mem_cons_self
      obtain ⟨w₁, hw₁, hshown⟩ := h.drop hd hl hv
      obtain ⟨w', hw', hshown⟩ := ih hshown hids fun x hx => by
        obtain ⟨hl, hv⟩ := hlive x (List.mem_cons_of_mem _ hx)
        exact ⟨⟨hl, fun heq => hid (heq ▸ hx)⟩, hv⟩
      exact ⟨w', hw₁.append hw', hshown⟩

/-- What is assigned aside leaves the rest as it is. -/
theorem hide (h : c.Shown names aside w) (hid : Hides names aside id)
    (hv : names id v.name ∨ aside v.name) (c' : Scene) (hinput : c'.input = c.input)
    (hvalue : ∀ x, c'.value x = if x = id then some v else c.value x)
    (hlive : ∀ x, x ≠ id → (c'.live x ↔ c.live x)) : c'.Shown names aside w := by
  have hname : aside v.name := hv.elim (hid _) fun h => h
  refine ⟨fun {x u} hx => ?_, fun {x} hx => ?_, fun x => hinput ▸ h.input x, fun {n u} hn => ?_⟩
  · rw [hvalue] at hx
    split at hx
    · next heq =>
        cases hx
        exact .inr ⟨hname, heq ▸ hid⟩
    · exact h.named hx
  · rw [hvalue]
    split
    · rfl
    · next hne => exact h.valued ((hlive x hne).1 hx)
  · rw [h.shows hn, hinput]
    refine and_congr_right fun hu => or_congr_right (exists_congr fun x => ?_)
    rw [hvalue]
    split
    · next heq =>
        subst heq
        -- neither the old value nor the new one has a name that counts
        constructor
        · rintro ⟨-, hx⟩
          rcases h.named hx with hnamed | ⟨haside, -⟩
          · exact absurd (hid _ (hu ▸ hnamed)) hn
          · exact absurd (hu ▸ haside) hn
        · rintro ⟨-, hx⟩
          cases hx
          exact absurd (hu ▸ hname) hn
    · next hne => rw [hlive x hne]

theorem name_assignment (c : Scene) (id : Id) (v : Variable) : (c.assignment id v).name = v.name := by
  unfold assignment
  split <;> rfl

/-- What an assignment that is reported makes of a window, if its name counts. -/
theorem put (hd : Distinct names) (h : c.Shown names aside w) (hv : names id v.name)
    (hname : ¬ aside v.name) : ((c.set id v).raise id).Shown names aside (w.put v.name (some v)) := by
  have hother : ∀ {x u}, x ≠ id → c.value x = some u → u.name ≠ v.name := by
    intro x u hx hu heq
    exact hx (hd.id_eq hv (heq ▸ h.name hu (heq ▸ hname)))
  refine ⟨fun {x u} hx => ?_, fun {x} hx => ?_, h.input, fun {n u} hn => ?_⟩
  · simp only [raise, set] at hx
    split at hx
    · next heq =>
        cases hx
        exact .inl (heq ▸ hv)
    · exact h.named hx
  · simp only [raise, set] at hx ⊢
    split
    · rfl
    · next hne => exact h.valued (hx.resolve_right hne)
  · simp only [raise, set]
    by_cases hnv : n = v.name
    · subst hnv
      rw [Watch.put_self]
      constructor
      · rintro ⟨⟩
        exact ⟨rfl, .inr ⟨id, .inr rfl, if_pos rfl⟩⟩
      · rintro ⟨hu, rfl | ⟨x, -, hx⟩⟩
        · exact absurd (hu ▸ hv) (h.input id)
        · split at hx
          · exact hx
          · next hne => exact absurd hu (hother hne hx)
    · rw [Watch.put_of_ne _ _ hnv, h.shows hn]
      refine and_congr_right fun hu => or_congr_right (exists_congr fun x => ?_)
      by_cases hx : x = id
      · subst hx
        rw [if_pos rfl]
        -- the name of the identifier is another one
        constructor
        · rintro ⟨-, hx⟩
          exact absurd (hu.symm.trans (hd.name_eq hv (h.name hx (hu ▸ hn)))) hnv
        · rintro ⟨-, hx⟩
          cases hx
          exact absurd hu.symm hnv
      · rw [if_neg hx, or_iff_left hx]

/-- The report of an assignment. An identifier that has a value but is not in scope is left aside. -/
theorem assign (hd : Distinct names) (h : c.Shown names aside w)
    (hv : names id v.name ∨ aside v.name ∧ Hides names aside id)
    (hdropped : (c.value id).isSome → ¬ c.live id → Hides names aside id) :
    ∃ w', w.Follows aside [c.assignment id v] w' ∧ ((c.set id v).raise id).Shown names aside w' := by
  by_cases hname : aside v.name
  · refine ⟨w, .skip (by rwa [name_assignment]) .nil, h.hide ?_ (.inr hname) _ rfl (fun _ => rfl)
      fun x hx => or_iff_left hx⟩
    rcases hv with hv | ⟨-, hhides⟩
    · intro n hn
      rwa [hd.name_eq hv hn]
    · exact hhides
  · replace hv : names id v.name := hv.resolve_right fun h => hname h.1
    refine ⟨w.put v.name (some v), .take (by rwa [name_assignment]) ?_ .nil, h.put hd hv hname⟩
    unfold assignment
    split
    · next before hbefore =>
        -- a value is in scope, for otherwise the name would not count
        have hlive : c.live id := Classical.not_not.1 fun hlive =>
          hname (hdropped (hbefore ▸ rfl) hlive _ hv)
        have hnamed : names id before.name := by
          rcases h.named hbefore with hnamed | ⟨-, hhides⟩
          · exact hnamed
          · exact absurd (hhides _ hv) hname
        exact .updated ((h.shows hname).2 ⟨hd.name_eq hv hnamed, .inr ⟨id, hlive, hbefore⟩⟩)
    · next hnone =>
        refine .created (h.eq_none hd hv hname fun hlive => ?_)
        have hvalued := h.valued hlive
        rw [hnone] at hvalued
        cases hvalued

/-- The report that a value is overwritten. -/
theorem overwrite (hd : Distinct names) (h : c.Shown names aside w)
    (hbefore : c.value id = some before) (hv : v.name = before.name)
    (hdropped : ¬ c.live id → Hides names aside id) :
    ∃ w', w.Follows aside [.updated before v] w' ∧ (c.set id v).Shown names aside w' := by
  by_cases hlive : c.live id ∧ names id v.name
  · obtain ⟨w', hw', hshown⟩ := h.assign hd (.inl hlive.2) fun _ h' => absurd hlive.1 h'
    rw [assignment, hbefore] at hw'
    have hscene : (c.set id v).raise id = c.set id v := by
      unfold raise set
      congr
      funext x
      exact propext (or_iff_left_of_imp fun hx => hx ▸ hlive.1)
    exact ⟨w', hw', hscene ▸ hshown⟩
  · have hhides : Hides names aside id := by
      by_cases hl : c.live id
      · rcases h.named hbefore with hnamed | ⟨-, hhides⟩
        · exact absurd ⟨hl, hv ▸ hnamed⟩ hlive
        · exact hhides
      · exact hdropped hl
    have hname : names id v.name ∨ aside v.name := hv ▸ (h.named hbefore).imp_right And.left
    refine ⟨w, .skip ?_ .nil, h.hide hhides hname _ rfl (fun _ => rfl) fun _ _ => .rfl⟩
    exact hname.elim (hhides _) fun h => h

end Shown

end Scene

end Lockstep
