import EcmaTree.Event.Value

/-!
# Induction over values

A value contains lists of values and lists of named values, so that functions on
values come in threes.  This file gives one induction principle for values, in
which the parts of a container satisfy the motive one by one, and turns the two
list functions of each family into plain maps and folds.
-/

namespace EcmaTree.Value

/-- What holds of all scalars, and of a container as soon as it holds of the
parts, holds of every value. -/
@[elab_as_elim, induction_eliminator]
theorem induction_on_parts
    {motive : Value → Prop}
    (null : motive .null)
    (bool : ∀ b, motive (.bool b))
    (int : ∀ i, motive (.int i))
    (float : ∀ x, motive (.float x))
    (text : ∀ s, motive (.text s))
    (array : ∀ items, (∀ v ∈ items, motive v) → motive (.array items))
    (object : ∀ members, (∀ m ∈ members, motive m.2) → motive (.object members))
    (v : Value) : motive v := by
  -- The recursor asks for a motive on lists of items, lists of members and members.
  refine @Value.rec motive (fun items => ∀ v ∈ items, motive v)
    (fun members => ∀ m ∈ members, motive m.2) (fun m => motive m.2)
    null bool int float text array object ?_ ?_ ?_ ?_ ?_ v
  · simp
  · intro v vs hv hvs
    exact List.forall_mem_cons.mpr ⟨hv, hvs⟩
  · simp
  · intro m ms hm hms
    exact List.forall_mem_cons.mpr ⟨hm, hms⟩
  · intro name v hv
    exact hv

/-! ## Depth -/

theorem depthItems_le_iff
    {items : List Value} {n : Nat} :
    depthItems items ≤ n ↔ ∀ v ∈ items, v.depth ≤ n := by
  induction items with
  | nil => simp [depthItems]
  | cons v vs ih => rw [depthItems, Nat.max_le, ih, List.forall_mem_cons]

theorem depthMembers_le_iff
    {members : List (String × Value)} {n : Nat} :
    depthMembers members ≤ n ↔ ∀ m ∈ members, m.2.depth ≤ n := by
  induction members with
  | nil => simp [depthMembers]
  | cons m ms ih => rw [depthMembers, Nat.max_le, ih, List.forall_mem_cons]

/-! ## Normalization -/

theorem normalizeItems_eq_map (items : List Value) :
    normalizeItems items = items.map normalize := by
  induction items with
  | nil => rfl
  | cons v vs ih => rw [normalizeItems, ih, List.map_cons]

theorem normalizeMembers_eq_map (members : List (String × Value)) :
    normalizeMembers members = members.map fun m => (m.1, m.2.normalize) := by
  induction members with
  | nil => rfl
  | cons m ms ih => rw [normalizeMembers, ih, List.map_cons]

/-- Null stands as deep as the number that it replaces. -/
theorem depth_normalize (v : Value) : v.normalize.depth = v.depth := by
  induction v with
  | null | bool | int | text => rfl
  | float x =>
      rw [normalize]
      split <;> rfl
  | array items ih =>
      have hitems : depthItems (normalizeItems items) = depthItems items := by
        induction items with
        | nil => rfl
        | cons v vs ihs =>
            obtain ⟨hv, hvs⟩ := List.forall_mem_cons.mp ih
            rw [normalizeItems, depthItems, depthItems, hv, ihs hvs]
      rw [normalize, depth, depth, hitems]
  | object members ih =>
      have hmembers : depthMembers (normalizeMembers members) = depthMembers members := by
        induction members with
        | nil => rfl
        | cons m ms ihs =>
            obtain ⟨hm, hms⟩ := List.forall_mem_cons.mp ih
            rw [normalizeMembers, depthMembers, depthMembers, hm, ihs hms]
      rw [normalize, depth, depth, hmembers]

/-! ## Texts -/

mutual

/-- The texts inside a value, names of members included. -/
def texts : Value → List String
  | .text s => [s]
  | .array items => textsItems items
  | .object members => textsMembers members
  | _ => []

def textsItems : List Value → List String
  | [] => []
  | v :: vs => v.texts ++ textsItems vs

def textsMembers : List (String × Value) → List String
  | [] => []
  | (name, v) :: rest => name :: v.texts ++ textsMembers rest

end

theorem textsItems_eq_flatMap (items : List Value) :
    textsItems items = items.flatMap texts := by
  induction items with
  | nil => rfl
  | cons v vs ih => rw [textsItems, ih, List.flatMap_cons]

theorem textsMembers_eq_flatMap (members : List (String × Value)) :
    textsMembers members = members.flatMap fun m => m.1 :: m.2.texts := by
  induction members with
  | nil => rfl
  | cons m ms ih => rw [textsMembers, ih, List.flatMap_cons]

/-! ## Events -/

/-- The events of a value do not depend on what follows. -/
theorem eventsThen_eq_append (v : Value) (rest : List Event) :
    v.eventsThen rest = v.events ++ rest := by
  unfold events
  induction v generalizing rest with
  | null | bool | int | float | text => rfl
  | array items ih =>
      have hitems : ∀ tail, itemsThen items tail = itemsThen items [] ++ tail := by
        induction items with
        | nil => exact fun _ => rfl
        | cons v vs ihs =>
            intro tail
            obtain ⟨hv, hvs⟩ := List.forall_mem_cons.mp ih
            rw [itemsThen, itemsThen, hv, hv (itemsThen vs []), ihs hvs, List.append_assoc]
      rw [eventsThen, eventsThen, hitems, hitems [.finish .array]]
      simp
  | object members ih =>
      have hmembers : ∀ tail, membersThen members tail = membersThen members [] ++ tail := by
        induction members with
        | nil => exact fun _ => rfl
        | cons m ms ihs =>
            intro tail
            obtain ⟨hm, hms⟩ := List.forall_mem_cons.mp ih
            rw [membersThen, membersThen, hm, hm (membersThen ms []), ihs hms]
            simp
      rw [eventsThen, eventsThen, hmembers, hmembers [.finish .object]]
      simp

/-- The events of a member: its name, and then those of its value. -/
def memberEvents (m : String × Value) : List Event :=
  .member m.1 :: m.2.events

theorem itemsThen_eq_append (items : List Value) (rest : List Event) :
    itemsThen items rest = items.flatMap events ++ rest := by
  induction items with
  | nil => rfl
  | cons v vs ih => rw [itemsThen, eventsThen_eq_append, ih, List.flatMap_cons, List.append_assoc]

theorem membersThen_eq_append (members : List (String × Value)) (rest : List Event) :
    membersThen members rest = members.flatMap memberEvents ++ rest := by
  induction members with
  | nil => rfl
  | cons m ms ih =>
      rw [membersThen, eventsThen_eq_append, ih, List.flatMap_cons, memberEvents]
      simp

theorem events_array (items : List Value) :
    (Value.array items).events =
      .start .array :: (items.flatMap events ++ [.finish .array]) := by
  rw [events, eventsThen, itemsThen_eq_append]

theorem events_object (members : List (String × Value)) :
    (Value.object members).events =
      .start .object :: (members.flatMap memberEvents ++ [.finish .object]) := by
  rw [events, eventsThen, membersThen_eq_append]

/-! ## Events determine the value -/

/-- Lists that end in the same way are equal, if the events of an element can be
told apart from those of others and from the end. -/
theorem flatMap_append_injective
    {α : Type} {f : α → List Event} {c : Container} {xs ys : List α} {r r' : List Event}
    (hunique : ∀ x ∈ xs, ∀ y r r', f x ++ r = f y ++ r' → x = y ∧ r = r')
    (hfinish : ∀ x r r', f x ++ r ≠ .finish c :: r')
    (h : xs.flatMap f ++ .finish c :: r = ys.flatMap f ++ .finish c :: r') :
    xs = ys ∧ r = r' := by
  induction xs generalizing ys with
  | nil =>
      cases ys with
      | nil => exact ⟨rfl, (List.cons.inj h).2⟩
      | cons y ys =>
          rw [List.flatMap_cons, List.append_assoc] at h
          exact absurd h.symm (hfinish y _ _)
  | cons x xs ih =>
      obtain ⟨hx, hxs⟩ := List.forall_mem_cons.mp hunique
      rw [List.flatMap_cons, List.append_assoc] at h
      cases ys with
      | nil => exact absurd h (hfinish x _ _)
      | cons y ys =>
          rw [List.flatMap_cons, List.append_assoc] at h
          obtain ⟨rfl, hrest⟩ := hx y _ _ h
          obtain ⟨rfl, hr⟩ := ih hxs hrest
          exact ⟨rfl, hr⟩

theorem events_append_ne_finish (v : Value) (c : Container) (r r' : List Event) :
    v.events ++ r ≠ .finish c :: r' := by
  cases v <;> simp [events, eventsThen]

/-- No events can be read as those of two values. -/
theorem events_append_injective
    {v w : Value} {r r' : List Event} (h : v.events ++ r = w.events ++ r') :
    v = w ∧ r = r' := by
  induction v generalizing w r r' with
  | null | bool | int | float | text =>
      cases w <;> simp_all [events, eventsThen]
  | array items ih =>
      cases w with
      | array others =>
          simp only [events_array, List.cons_append, List.append_assoc, List.cons.injEq,
            true_and, List.nil_append] at h
          obtain ⟨rfl, hr⟩ := flatMap_append_injective (fun v hv w r r' => ih v hv)
            (fun v => v.events_append_ne_finish .array) h
          exact ⟨rfl, hr⟩
      | _ => simp [events, eventsThen] at h
  | object members ih =>
      cases w with
      | object others =>
          simp only [events_object, List.cons_append, List.append_assoc, List.cons.injEq,
            true_and, List.nil_append] at h
          have hunique : ∀ m ∈ members, ∀ (m' : String × Value) (r r' : List Event),
              memberEvents m ++ r = memberEvents m' ++ r' → m = m' ∧ r = r' := by
            intro m hm m' r r' heq
            simp only [memberEvents, List.cons_append, List.cons.injEq, Event.member.injEq] at heq
            obtain ⟨hvalue, hr⟩ := ih m hm heq.2
            exact ⟨Prod.ext heq.1 hvalue, hr⟩
          have hfinish : ∀ (m : String × Value) (r r' : List Event),
              memberEvents m ++ r ≠ .finish .object :: r' := by
            simp [memberEvents]
          obtain ⟨rfl, hr⟩ := flatMap_append_injective hunique hfinish h
          exact ⟨rfl, hr⟩
      | _ => simp [events, eventsThen] at h

theorem events_injective : Function.Injective events := by
  intro v w h
  exact (events_append_injective (congrArg (· ++ []) h)).1

end EcmaTree.Value
