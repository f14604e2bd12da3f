import Mathlib.Data.List.AList

/-! Hash maps, as association lists without repeated keys. A map that is built by inserting keeps for each
key the value inserted last; an iteration lists the entries in an order of its own. -/

namespace HashMap

variable {α β γ : Type*} {m : AList fun _ : α => β} {l l' : List (α × β)} {a : α} {b : β}

/-- `l` is what an iteration over `m` yields, in some order. -/
def Iterates (m : AList fun _ : α => β) (l : List (α × β)) : Prop :=
  l.Perm (m.entries.map fun e => (e.1, e.2))

theorem exists_iterates (m : AList fun _ : α => β) : ∃ l, Iterates m l := ⟨_, List.Perm.refl _⟩

theorem Iterates.perm (h : Iterates m l) (hperm : l'.Perm l) : Iterates m l' := hperm.trans h

theorem Iterates.nodup_keys (h : Iterates m l) : (l.map Prod.fst).Nodup := by
  rw [(h.map Prod.fst).nodup_iff, List.map_map]
  exact m.nodupKeys

variable [DecidableEq α]

/-- Inserting the items of a list in turn. -/
theorem lookup_foldl_insert (key : γ → α) (val : γ → β) (items : List γ) (m : AList fun _ : α => β)
    (a : α) :
    (items.foldl (fun m x => m.insert (key x) (val x)) m).lookup a =
      ((items.reverse.find? fun x => key x = a).map val).or (m.lookup a) := by
  induction items generalizing m with
  | nil => rfl
  | cons x items ih =>
      rw [List.foldl_cons, ih, List.reverse_cons, List.find?_append, Option.map_or]
      by_cases hx : key x = a
      · subst hx
        rw [AList.lookup_insert]
        simp
      · rw [AList.lookup_insert_ne (fun h => hx h.symm)]
        simp [hx]

theorem Iterates.mem_iff (h : Iterates m l) : (a, b) ∈ l ↔ m.lookup a = some b := by
  rw [List.Perm.mem_iff h, ← Option.mem_def, AList.mem_lookup_iff, List.mem_map]
  constructor
  · rintro ⟨e, he, heq⟩
    cases heq
    exact he
  · exact fun he => ⟨_, he, rfl⟩

/-- Looking for the first entry with a key in the list is looking up the key in the map. -/
theorem Iterates.find?_eq (h : Iterates m l) (a : α) :
    (l.find? fun e => e.1 = a).map Prod.snd = m.lookup a := by
  cases hfind : l.find? fun e => e.1 = a with
  | some e =>
      obtain rfl : e.1 = a := by simpa using List.find?_some hfind
      exact (h.mem_iff.mp (List.mem_of_find?_eq_some hfind)).symm
  | none =>
      cases hlookup : m.lookup a with
      | none => rfl
      | some b =>
          have := List.find?_eq_none.mp hfind _ (h.mem_iff.mpr hlookup)
          simp at this

end HashMap
