import Calculator.Context

/-!
# Bindings

A table that is made from a list has the names of the list and no others. So the frame of a call has an entry
for each parameter of the function, whatever the arguments are, and for no other name.
-/

namespace Calculator

namespace Table

variable {α : Type} {t : Table α} {P : α → Prop}

def All (P : α → Prop) (t : Table α) : Prop := ∀ name v, t.get? name = some v → P v

theorem All.empty : All P .empty := nofun

theorem All.insert {name : String} {v : α} (h : t.All P) (hv : P v) : (t.insert name v).All P := by
  intro m w hw
  rw [get?_insert] at hw
  split at hw
  case isTrue  => cases hw; exact hv
  case isFalse => exact h m w hw

theorem all_ofList {entries : List (String × α)} (h : ∀ entry ∈ entries, P entry.2) :
    (ofList entries).All P := by
  suffices hf : ∀ t : Table α, t.All P →
      (entries.foldl (fun t entry => t.insert entry.1 entry.2) t).All P from hf _ All.empty
  induction entries
  case nil => exact fun _ ht => ht
  case cons hi =>
    rw [List.forall_mem_cons] at h
    exact fun t ht => hi h.right _ (ht.insert h.left)

theorem insert_insert {name : String} {v w : α} : (t.insert name v).insert name w = t.insert name w := by
  simp only [insert, Table.mk.injEq]
  induction t.entries
  case nil             => simp [insert.put]
  case cons entry _ hi => by_cases h : entry.1 = name <;> simp [insert.put, h, hi]

-- A name that is there keeps its place, so that it does not matter when it gets its new value.
theorem insert_comm {name other : String} {v w : α} (h : name ≠ other) (hn : ∃ x, t.get? name = some x) :
    (t.insert other v).insert name w = (t.insert name w).insert other v := by
  obtain ⟨entries⟩ := t
  simp only [insert, get?, Table.mk.injEq] at *
  induction entries
  case nil             => simp at hn
  case cons entry _ hi =>
    by_cases he : entry.1 = name
    case pos => simp [insert.put, he, h]
    case neg =>
      rw [List.lookup_cons, beq_false_of_ne (Ne.symm he)] at hn
      by_cases ho : entry.1 = other <;> simp [insert.put, he, ho, h.symm, hi hn]

theorem exists_get?_ofList {entries : List (String × α)} {s : String} (h : ∃ v, (s, v) ∈ entries) :
    ∃ v, (ofList entries).get? s = some v := by
  suffices hf : ∀ t : Table α, ((∃ v, t.get? s = some v) ∨ ∃ v, (s, v) ∈ entries) →
      ∃ v, (entries.foldl (fun t entry => t.insert entry.1 entry.2) t).get? s = some v from hf _ (.inr h)
  clear h
  induction entries
  case nil => simp
  case cons entry rest hi =>
    intro t h
    refine hi _ ?_
    by_cases hs : s = entry.1
    case pos => exact .inl ⟨entry.2, hs ▸ get?_insert_self⟩
    case neg => simpa [get?_insert_of_ne hs, Prod.ext_iff, hs] using h

theorem get?_ofList_of_not_mem {entries : List (String × α)} {s : String}
    (h : ∀ entry ∈ entries, entry.1 ≠ s) : (ofList entries).get? s = none := by
  suffices hf : ∀ t : Table α, t.get? s = none →
      (entries.foldl (fun t entry => t.insert entry.1 entry.2) t).get? s = none from hf _ rfl
  induction entries
  case nil => exact fun _ ht => ht
  case cons hi =>
    rw [List.forall_mem_cons] at h
    exact fun t ht => hi h.right _ ((get?_insert_of_ne h.left.symm).trans ht)

-- The entries that come later win.
theorem get?_ofList_append {entries more : List (String × α)} {s : String} :
    (ofList (entries ++ more)).get? s = ((ofList more).get? s).or ((ofList entries).get? s) := by
  suffices hf : ∀ t : Table α,
      (more.foldl (fun t entry => t.insert entry.1 entry.2) t).get? s =
        ((ofList more).get? s).or (t.get? s) by
    rw [ofList, List.foldl_append]
    exact hf (ofList entries)
  induction more
  case nil => exact fun _ => rfl
  case cons entry rest hi =>
    intro t
    have he : (ofList (entry :: rest)).get? s =
        ((ofList rest).get? s).or ((empty.insert entry.1 entry.2).get? s) := hi _
    rw [List.foldl_cons, hi, he, Option.or_assoc, get?_insert, get?_insert]
    split <;> rfl

end Table

namespace Declaration

variable {d : Declaration} {ps : List String} {xs : List Number} {s : String}

theorem mem_params_of_mem_bindings : ∀ entry ∈ bindings ps xs, entry.1 ∈ ps := by
  induction ps generalizing xs
  case nil => exact nofun
  case cons p ps hi =>
    cases xs <;> exact List.forall_mem_cons.mpr
      ⟨List.mem_cons_self, fun entry he => List.mem_cons_of_mem _ (hi entry he)⟩

theorem exists_mem_bindings (h : s ∈ ps) : ∃ x, (s, x) ∈ bindings ps xs := by
  induction ps generalizing xs
  case nil => cases h
  case cons p ps hi =>
    cases List.mem_cons.mp h
    case inl h => cases xs <;> simp [bindings, h]
    case inr h => cases xs <;> exact (hi h).imp fun _ => List.mem_cons_of_mem _

theorem frame_get?_of_not_mem (h : s ∉ d.params) : (d.frame xs).get? s = none :=
  Table.get?_ofList_of_not_mem fun _ he hs => h (hs ▸ mem_params_of_mem_bindings _ he)

theorem exists_frame_get? (xs : List Number) (h : s ∈ d.params) : ∃ x, (d.frame xs).get? s = some x :=
  Table.exists_get?_ofList (exists_mem_bindings h)

-- Arguments without a parameter are dropped.
theorem bindings_take : bindings ps (xs.take ps.length) = bindings ps xs := by
  induction ps generalizing xs
  case nil => rfl
  case cons p ps hi =>
    cases xs
    case nil       => rfl
    case cons x xs => exact congrArg ((p, some x) :: ·) hi

theorem bindings_append {more : List Number} :
    bindings ps (xs ++ more) = bindings (ps.take xs.length) xs ++ bindings (ps.drop xs.length) more := by
  induction xs generalizing ps
  case nil => rfl
  case cons x xs hi =>
    cases ps
    case nil       => rfl
    case cons p ps => exact congrArg ((p, some x) :: ·) hi

theorem bindings_nil : ∀ entry ∈ bindings ps [], entry.2 = none := by
  induction ps
  case nil     => exact nofun
  case cons hi => exact List.forall_mem_cons.mpr ⟨rfl, hi⟩

end Declaration

end Calculator
