import Mathlib.Data.List.Dedup
import Quorums.BaseMap
import Quorums.ServerDispatch

/-! The metadata of a call, from the context of the client to that of the handler. The client's list
becomes a hash map (`metadata_map`), the map travels in the envelope, and `node_stream` turns it back
into a list, in the order in which the server's map happens to be iterated. -/

namespace Quorums

/-- `metadata_map`. -/
def metadataMap (entries : List (String × String)) : AList fun _ : String => String :=
  entries.foldl (fun m e => m.insert e.1 e.2) ∅

namespace Server

/-- `ServerCtx::metadata_get`. -/
def ServerCtx.metadataGet (ctx : ServerCtx) (key : String) : Option String :=
  (ctx.metadata.find? fun e => e.1 = key).map Prod.snd

end Server

open Server

variable {entries : List (String × String)} {ctx : ServerCtx} {key : String} {keys : List String}

/-- The context a handler can get for a call with the entries. The map that arrives has the contents of
the one that was sent, and its iteration order is its own. -/
def Delivered (entries : List (String × String)) (ctx : ServerCtx) : Prop :=
  ∃ (map : AList fun _ : String => String) (msg : Message),
    (∀ key, map.lookup key = (metadataMap entries).lookup key) ∧ HashMap.Iterates map msg.metadata ∧
      ctx = ctxOf msg

/-- The value attached last under a key. -/
def lastValue (entries : List (String × String)) (key : String) : Option String :=
  (entries.reverse.find? fun e => e.1 = key).map Prod.snd

/-- The distinct keys in the order in which the client attached them: where a key is repeated, the place
is that of its first or that of its last entry. -/
inductive AttachOrder (entries : List (String × String)) : List String → Prop where
  | first : AttachOrder entries (entries.map Prod.fst).reverse.dedup.reverse
  | last : AttachOrder entries (entries.map Prod.fst).dedup

/-- The handler sees each distinct key once, in the order `keys`, with the value attached last, and looks
up the value attached last. -/
structure Documented (entries : List (String × String)) (keys : List String) (ctx : ServerCtx) : Prop where
  order : ctx.metadata.map Prod.fst = keys
  last : ∀ e ∈ ctx.metadata, lastValue entries e.1 = some e.2
  get : ∀ key, ctx.metadataGet key = lastValue entries key

/-- All entries have one key. -/
def OneKey (entries : List (String × String)) : Prop := ∀ a ∈ entries, ∀ b ∈ entries, a.1 = b.1

theorem lookup_metadataMap (entries : List (String × String)) (key : String) :
    (metadataMap entries).lookup key = lastValue entries key := by
  rw [metadataMap, HashMap.lookup_foldl_insert, AList.lookup_empty, Option.or_none, lastValue]

theorem lastValue_isSome : (lastValue entries key).isSome = true ↔ key ∈ entries.map Prod.fst := by
  rw [lastValue, Option.isSome_map, List.find?_isSome, List.mem_map]
  simp

/-! ### What arrives in any order -/

theorem Delivered.mem_iff (h : Delivered entries ctx) {v : String} :
    (key, v) ∈ ctx.metadata ↔ lastValue entries key = some v := by
  obtain ⟨map, msg, hsame, hiter, rfl⟩ := h
  rw [← lookup_metadataMap, ← hsame key]
  exact hiter.mem_iff

theorem Delivered.nodup_keys (h : Delivered entries ctx) : (ctx.metadata.map Prod.fst).Nodup := by
  obtain ⟨map, msg, -, hiter, rfl⟩ := h
  exact hiter.nodup_keys

theorem Delivered.mem_keys_iff (h : Delivered entries ctx) :
    key ∈ ctx.metadata.map Prod.fst ↔ key ∈ entries.map Prod.fst := by
  rw [List.mem_map, ← lastValue_isSome, Option.isSome_iff_exists]
  constructor
  · rintro ⟨e, he, rfl⟩
    exact ⟨e.2, h.mem_iff.mp he⟩
  · rintro ⟨v, hv⟩
    exact ⟨(key, v), h.mem_iff.mpr hv, rfl⟩

/-- The lookup does not depend on the order. -/
theorem Delivered.metadataGet_eq (h : Delivered entries ctx) (key : String) :
    ctx.metadataGet key = lastValue entries key := by
  obtain ⟨map, msg, hsame, hiter, rfl⟩ := h
  rw [← lookup_metadataMap, ← hsame key]
  exact hiter.find?_eq key

/-- The server's map may as well be iterated the other way. -/
theorem Delivered.reverse (h : Delivered entries ctx) :
    Delivered entries { ctx with metadata := ctx.metadata.reverse } := by
  obtain ⟨map, msg, hsame, hiter, rfl⟩ := h
  exact ⟨map, { msg with metadata := msg.metadata.reverse }, hsame,
    hiter.perm (List.reverse_perm _), rfl⟩

theorem exists_delivered (entries : List (String × String)) : ∃ ctx, Delivered entries ctx := by
  obtain ⟨l, hl⟩ := HashMap.exists_iterates (metadataMap entries)
  exact ⟨_, metadataMap entries, ⟨0, "", 0, "", [], l⟩, fun _ => rfl, hl, rfl⟩

/-! ### The order -/

theorem AttachOrder.nodup (h : AttachOrder entries keys) : keys.Nodup := by
  cases h with
  | first => exact List.nodup_reverse.mpr (List.nodup_dedup _)
  | last => exact List.nodup_dedup _

theorem AttachOrder.mem_iff (h : AttachOrder entries keys) : key ∈ keys ↔ key ∈ entries.map Prod.fst := by
  cases h with
  | first => rw [List.mem_reverse, List.mem_dedup, List.mem_reverse]
  | last => exact List.mem_dedup

/-- What the handler sees is the documented list up to its order. -/
theorem Delivered.perm (h : Delivered entries ctx) (hkeys : AttachOrder entries keys) :
    (ctx.metadata.map Prod.fst).Perm keys :=
  (List.perm_ext_iff_of_nodup h.nodup_keys hkeys.nodup).mpr fun _ =>
    h.mem_keys_iff.trans hkeys.mem_iff.symm

/-- A list without repeats that reads the same in both directions has at most one element. -/
theorem eq_of_mem_palindrome {xs : List String} (hnodup : xs.Nodup) (hrev : xs.reverse = xs) {a b : String}
    (ha : a ∈ xs) (hb : b ∈ xs) : a = b := by
  cases xs with
  | nil => cases ha
  | cons x rest =>
      have hrest : rest = [] := by
        by_contra hne
        have hhead := congrArg List.head? hrev
        rw [List.reverse_cons, List.head?_append_of_ne_nil _ (List.reverse_ne_nil_iff.mpr hne)] at hhead
        have hx : x ∈ rest := List.mem_reverse.mp (List.mem_of_head? hhead)
        exact (List.nodup_cons.mp hnodup).1 hx
      subst hrest
      rw [List.mem_singleton.mp ha, List.mem_singleton.mp hb]

/-- One key has one order. -/
theorem Delivered.order_of_oneKey (h : Delivered entries ctx) (hkeys : AttachOrder entries keys)
    (hone : OneKey entries) : ctx.metadata.map Prod.fst = keys := by
  have hperm := h.perm hkeys
  cases hentries : entries with
  | nil =>
      have hnil : keys = [] := List.eq_nil_iff_forall_not_mem.mpr fun k hk => by
        have := hkeys.mem_iff.mp hk
        rw [hentries] at this
        cases this
      rw [hnil] at hperm ⊢
      exact List.perm_nil.mp hperm
  | cons e rest =>
      have hmem : e ∈ entries := by rw [hentries]; exact List.mem_cons_self
      have hsingle : keys = [e.1] := by
        refine List.perm_singleton.mp ((List.perm_ext_iff_of_nodup hkeys.nodup (by simp)).mpr fun k => ?_)
        rw [hkeys.mem_iff, List.mem_singleton, List.mem_map]
        constructor
        · rintro ⟨a, ha, rfl⟩
          exact hone a ha e hmem
        · exact fun hk => ⟨e, hmem, hk.symm⟩
      rw [hsingle] at hperm ⊢
      exact List.perm_singleton.mp hperm

/-- The metadata reaches every handler as documented if and only if the client attached no two distinct
keys: their order is that of the server's hash map. -/
theorem documented_iff (hkeys : AttachOrder entries keys) :
    (∀ ctx, Delivered entries ctx → Documented entries keys ctx) ↔ OneKey entries := by
  constructor
  · intro h a ha b hb
    obtain ⟨ctx, hctx⟩ := exists_delivered entries
    have horder := (h ctx hctx).order
    have hrev := (h _ hctx.reverse).order
    rw [List.map_reverse, horder] at hrev
    exact eq_of_mem_palindrome hkeys.nodup hrev (hkeys.mem_iff.mpr (List.mem_map_of_mem ha))
      (hkeys.mem_iff.mpr (List.mem_map_of_mem hb))
  · intro hone ctx hctx
    exact ⟨hctx.order_of_oneKey hkeys hone, fun e he => hctx.mem_iff.mp he, hctx.metadataGet_eq⟩

theorem documented_iff_repeated : AttachOrder [("trace-id", "a"), ("trace-id", "b")] ["trace-id"] ∧
    ∀ ctx, Delivered [("trace-id", "a"), ("trace-id", "b")] ctx →
      Documented [("trace-id", "a"), ("trace-id", "b")] ["trace-id"] ctx := by
  have hkeys : AttachOrder [("trace-id", "a"), ("trace-id", "b")] ["trace-id"] := .last
  refine ⟨hkeys, (documented_iff hkeys).mpr ?_⟩
  unfold OneKey
  decide

/-- Two keys, and a server whose map yields the second one first. -/
theorem not_documented_twoKeys : ∃ ctx, Delivered [("a", "1"), ("b", "2")] ctx ∧
    ctx.metadata = [("b", "2"), ("a", "1")] ∧ AttachOrder [("a", "1"), ("b", "2")] ["a", "b"] ∧
    ¬Documented [("a", "1"), ("b", "2")] ["a", "b"] ctx := by
  refine ⟨⟨0, "", [("b", "2"), ("a", "1")]⟩, ⟨metadataMap [("a", "1"), ("b", "2")],
    ⟨0, "", 0, "", [], [("b", "2"), ("a", "1")]⟩, fun _ => rfl, by unfold HashMap.Iterates; decide, rfl⟩, rfl,
    ?_, fun h => ?_⟩
  · exact AttachOrder.last
  · exact absurd h.order (by decide)

end Quorums
