import Mathlib

/-! The names that the code generator writes at file level (`quorums-build`). For every service with an
annotated method `generate` writes one handle struct per annotated method, a client module and a server
module. Everything that the services of a package give ends up in one file. -/

namespace Quorums.Build

inductive CallType where
  | rpcCall
  | unicast
  | multicast
  | quorumCall
  | orderedQuorumCall
  | correctable
  deriving DecidableEq, Repr

structure Method where
  protoName : String
  deriving DecidableEq, Repr

structure Service where
  name : String
  protoName : String
  package : String
  methods : List Method
  deriving DecidableEq, Repr

/-- The path of a method, under which it is annotated. -/
def fullPath (service : Service) (method : Method) : String :=
  "/" ++ service.package ++ "." ++ service.protoName ++ "/" ++ method.protoName

/-- `to_snake_case`. -/
def toSnakeCase (s : String) : String :=
  String.ofList (s.toList.zipIdx.flatMap fun (ch, i) =>
    if ch.isUpper = true ∧ i > 0 then ['_', ch.toLower] else [ch.toLower])

def handleName (svcName protoName : String) : String := svcName ++ protoName ++ "Method"

def clientMod (svcName : String) : String := toSnakeCase svcName ++ "_client"

def serverMod (svcName : String) : String := toSnakeCase svcName ++ "_server"

structure GorumsGenerator where
  methods : AList fun _ : String => CallType

namespace GorumsGenerator

/-- `configure`. -/
def configure : GorumsGenerator := ⟨∅⟩

/-- `Builder::method`. -/
def method (gen : GorumsGenerator) (path : String) (callType : CallType) : GorumsGenerator :=
  ⟨gen.methods.insert path callType⟩

def annotated (gen : GorumsGenerator) (service : Service) : List Method :=
  service.methods.filter fun method => (gen.methods.lookup (fullPath service method)).isSome

/-- The names of the items that `generate` writes at file level. -/
def generate (gen : GorumsGenerator) (service : Service) : List String :=
  if gen.annotated service = [] then []
  else
    (gen.annotated service).map (fun method => handleName service.name method.protoName) ++
      [clientMod service.name, serverMod service.name]

end GorumsGenerator

/-- UpperCamelCase without underscores. -/
structure UpperCamel (name : String) : Prop where
  upper : ∃ c rest, name.toList = c :: rest ∧ c.isUpper = true
  alphanum : ∀ c ∈ name.toList, c.isAlphanum = true

/-- The services of one proto package, as they come out of prost. -/
structure Package where
  services : List Service
  upperCamel : ∀ service ∈ services, UpperCamel service.name
  distinct : (services.map Service.name).Nodup
  methods : ∀ service ∈ services, (service.methods.map Method.protoName).Nodup

/-- The names at file level. -/
def GorumsGenerator.fileNames (gen : GorumsGenerator) (package : Package) : List String :=
  package.services.flatMap gen.generate

/-- A service name goes on where another one ends, and the rest of it begins a method of the other one. -/
def GorumsGenerator.Clash (gen : GorumsGenerator) (package : Package) : Prop :=
  ∃ short ∈ package.services, ∃ long ∈ package.services, ∃ rest, rest ≠ "" ∧
    long.name = short.name ++ rest ∧ ∃ method ∈ gen.annotated short, ∃ method' ∈ gen.annotated long,
      method.protoName = rest ++ method'.protoName

/-! ### Snake case -/

/-- What `to_snake_case` makes of a character that is not the first one. -/
def snakeChar (ch : Char) : List Char := if ch.isUpper = true then ['_', ch.toLower] else [ch.toLower]

theorem flatMap_zipIdx_snake (chars : List Char) {i : Nat} (hi : 0 < i) :
    ((chars.zipIdx i).flatMap fun (ch, i) =>
      if ch.isUpper = true ∧ i > 0 then ['_', ch.toLower] else [ch.toLower]) = chars.flatMap snakeChar := by
  induction chars generalizing i with
  | nil => rfl
  | cons ch chars ih =>
      rw [List.zipIdx_cons, List.flatMap_cons, List.flatMap_cons, ih (Nat.succ_pos i), snakeChar]
      simp [hi]

theorem toList_toSnakeCase {s : String} {c : Char} {rest : List Char} (h : s.toList = c :: rest) :
    (toSnakeCase s).toList = c.toLower :: rest.flatMap snakeChar := by
  rw [toSnakeCase, String.toList_ofList, h, List.zipIdx_cons, List.flatMap_cons,
    flatMap_zipIdx_snake rest (Nat.succ_pos 0)]
  simp

theorem eq_of_toLower_eq {a b : Char} (ha : a.isUpper = true) (hb : b.isUpper = true)
    (h : a.toLower = b.toLower) : a = b := by
  have hupper {c : Char} (hc : c.isUpper = true) : c.toLower.toUpper = c := by
    rw [Char.toUpper_toLower_eq_toUpper, Char.toUpper_eq_of_not_isLower (Char.not_isLower_of_isUpper hc)]
  rw [← hupper ha, ← hupper hb, h]

/-- The underscores mark the uppercase characters, so they can be put back. -/
theorem eq_of_flatMap_snakeChar_eq {xs ys : List Char} (hxs : '_' ∉ xs) (hys : '_' ∉ ys)
    (h : xs.flatMap snakeChar = ys.flatMap snakeChar) : xs = ys := by
  have hne (c : Char) : snakeChar c ≠ [] := by
    rw [snakeChar]
    split <;> nofun
  induction xs generalizing ys with
  | nil =>
      cases ys with
      | nil => rfl
      | cons y ys => exact absurd (List.append_eq_nil_iff.mp h.symm).1 (hne y)
  | cons x xs ih =>
      cases ys with
      | nil => exact absurd (List.append_eq_nil_iff.mp h).1 (hne x)
      | cons y ys =>
          rw [List.mem_cons, not_or] at hxs hys
          rw [List.flatMap_cons, List.flatMap_cons, snakeChar, snakeChar] at h
          by_cases hx : x.isUpper = true <;> by_cases hy : y.isUpper = true
          · rw [if_pos hx, if_pos hy] at h
            simp only [List.cons_append, List.nil_append, List.cons.injEq, true_and] at h
            rw [eq_of_toLower_eq hx hy h.1, ih hxs.2 hys.2 h.2]
          · rw [if_pos hx, if_neg hy, Char.toLower_eq_of_not_isUpper hy] at h
            exact absurd (List.cons.inj h).1 hys.1
          · rw [if_neg hx, if_pos hy, Char.toLower_eq_of_not_isUpper hx] at h
            exact absurd (List.cons.inj h).1.symm hxs.1
          · rw [if_neg hx, if_neg hy, Char.toLower_eq_of_not_isUpper hx,
              Char.toLower_eq_of_not_isUpper hy] at h
            rw [(List.cons.inj h).1, ih hxs.2 hys.2 (List.cons.inj h).2]

theorem UpperCamel.underscore_notMem {name : String} (h : UpperCamel name) : '_' ∉ name.toList :=
  fun hmem => absurd (h.alphanum '_' hmem) (by decide)

theorem toSnakeCase_inj {a b : String} (ha : UpperCamel a) (hb : UpperCamel b)
    (h : toSnakeCase a = toSnakeCase b) : a = b := by
  obtain ⟨x, xs, hxs, hx⟩ := ha.upper
  obtain ⟨y, ys, hys, hy⟩ := hb.upper
  have hlist := congrArg String.toList h
  rw [toList_toSnakeCase hxs, toList_toSnakeCase hys] at hlist
  obtain ⟨hfirst, hrest⟩ := List.cons.inj hlist
  have hnotx := ha.underscore_notMem
  have hnoty := hb.underscore_notMem
  rw [hxs, List.mem_cons, not_or] at hnotx
  rw [hys, List.mem_cons, not_or] at hnoty
  rw [← String.toList_inj, hxs, hys, eq_of_toLower_eq hx hy hfirst,
    eq_of_flatMap_snakeChar_eq hnotx.2 hnoty.2 hrest]

/-! ### Modules and handles -/

theorem clientMod_ne_serverMod (a b : String) : clientMod a ≠ serverMod b := by
  intro h
  have hlast := congrArg (fun s => s.toList.getLast?) h
  have hclient : "_client".toList.getLast? = some 't' := by decide
  have hserver : "_server".toList.getLast? = some 'r' := by decide
  simp only [clientMod, serverMod, String.toList_append, List.getLast?_append, hclient, hserver,
    Option.some_or] at hlast
  exact absurd (Option.some.inj hlast) (by decide)

theorem clientMod_inj {a b : String} (ha : UpperCamel a) (hb : UpperCamel b)
    (h : clientMod a = clientMod b) : a = b :=
  toSnakeCase_inj ha hb (String.append_left_inj _ |>.mp h)

theorem serverMod_inj {a b : String} (ha : UpperCamel a) (hb : UpperCamel b)
    (h : serverMod a = serverMod b) : a = b :=
  toSnakeCase_inj ha hb (String.append_left_inj _ |>.mp h)

/-- Handles begin with an uppercase letter, modules do not. -/
theorem handleName_ne_mod {a b suffix : String} (ha : UpperCamel a) (hb : UpperCamel b)
    (protoName : String) : handleName a protoName ≠ toSnakeCase b ++ suffix := by
  intro h
  obtain ⟨x, xs, hxs, hx⟩ := ha.upper
  obtain ⟨y, ys, hys, -⟩ := hb.upper
  have hlist := congrArg String.toList h
  rw [handleName, String.toList_append, String.toList_append, hxs, String.toList_append,
    toList_toSnakeCase hys] at hlist
  have hfirst : x = y.toLower := (List.cons.inj hlist).1
  rw [hfirst, Char.isUpper_toLower_eq_false] at hx
  cases hx

/-- Two handles are equal if a service name and the beginning of a method make up another service name. -/
theorem handleName_eq_iff {a b m n : String} : handleName a m = handleName b n ↔
    (∃ rest, b = a ++ rest ∧ m = rest ++ n) ∨ ∃ rest, a = b ++ rest ∧ n = rest ++ m := by
  rw [handleName, handleName, String.append_left_inj, ← String.toList_inj, String.toList_append,
    String.toList_append, List.append_eq_append_iff]
  have hlist {a b m n : String} : (∃ rest, b.toList = a.toList ++ rest ∧ m.toList = rest ++ n.toList) ↔
      ∃ rest, b = a ++ rest ∧ m = rest ++ n := by
    constructor
    · rintro ⟨rest, hb, hm⟩
      refine ⟨String.ofList rest, ?_, ?_⟩ <;>
        rw [← String.toList_inj, String.toList_append, String.toList_ofList]
      · exact hb
      · exact hm
    · rintro ⟨rest, rfl, rfl⟩
      exact ⟨rest.toList, String.toList_append, String.toList_append⟩
  rw [hlist, hlist]

/-! ### The file -/

namespace GorumsGenerator

variable {gen : GorumsGenerator} {package : Package} {service service' : Service} {name : String}

theorem mem_generate : name ∈ gen.generate service ↔
    (∃ method ∈ gen.annotated service, name = handleName service.name method.protoName) ∨
      gen.annotated service ≠ [] ∧ (name = clientMod service.name ∨ name = serverMod service.name) := by
  rw [generate]
  split
  · rename_i hnone
    simp [hnone]
  · rename_i hsome
    simp only [List.mem_append, List.mem_map, List.mem_cons, List.not_mem_nil, or_false, hsome, ne_eq,
      not_false_eq_true, true_and, eq_comm]

/-- The names of one service differ: its methods do, and handles are no modules. -/
theorem nodup_generate (hcamel : UpperCamel service.name)
    (hmethods : (service.methods.map Method.protoName).Nodup) : (gen.generate service).Nodup := by
  rw [generate]
  split
  · exact List.nodup_nil
  · rw [List.nodup_append]
    refine ⟨?_, ?_, ?_⟩
    · have hsub : ((gen.annotated service).map Method.protoName).Nodup :=
        hmethods.sublist (List.filter_sublist.map _)
      have hinj : Function.Injective (handleName service.name) := by
        intro m n h
        rw [handleName, handleName, String.append_left_inj] at h
        exact (String.append_right_inj _).mp h
      have hmap := hsub.map hinj
      rwa [List.map_map] at hmap
    · simp [clientMod_ne_serverMod]
    · rintro a ha b hb rfl
      obtain ⟨method, -, rfl⟩ := List.mem_map.mp ha
      rcases List.mem_pair.mp hb with hb | hb
      · exact handleName_ne_mod hcamel hcamel _ hb
      · exact handleName_ne_mod hcamel hcamel _ hb

/-- The names of two services meet in a handle only. -/
theorem exists_handle_of_mem (hcamel : UpperCamel service.name) (hcamel' : UpperCamel service'.name)
    (hne : service.name ≠ service'.name) (h : name ∈ gen.generate service)
    (h' : name ∈ gen.generate service') :
    ∃ method ∈ gen.annotated service, ∃ method' ∈ gen.annotated service',
      handleName service.name method.protoName = handleName service'.name method'.protoName := by
  rw [mem_generate] at h h'
  rcases h with ⟨method, hmethod, rfl⟩ | ⟨-, hmod⟩
  · rcases h' with ⟨method', hmethod', hname⟩ | ⟨-, hmod⟩
    · exact ⟨method, hmethod, method', hmethod', hname⟩
    · rcases hmod with hmod | hmod
      · exact absurd hmod (handleName_ne_mod hcamel hcamel' _)
      · exact absurd hmod (handleName_ne_mod hcamel hcamel' _)
  · rcases h' with ⟨method', -, rfl⟩ | ⟨-, hmod'⟩
    · rcases hmod with hmod | hmod
      · exact absurd hmod (handleName_ne_mod hcamel' hcamel _)
      · exact absurd hmod (handleName_ne_mod hcamel' hcamel _)
    · rcases hmod with rfl | rfl <;> rcases hmod' with hmod' | hmod'
      · exact absurd (clientMod_inj hcamel hcamel' hmod') hne
      · exact absurd hmod' (clientMod_ne_serverMod _ _)
      · exact absurd hmod'.symm (clientMod_ne_serverMod _ _)
      · exact absurd (serverMod_inj hcamel hcamel' hmod') hne

/-- Services with two equal handles clash. -/
theorem clash_of_handleName_eq (hservice : service ∈ package.services)
    (hservice' : service' ∈ package.services) (hne : service.name ≠ service'.name) {method method' : Method}
    (hmethod : method ∈ gen.annotated service) (hmethod' : method' ∈ gen.annotated service')
    (h : handleName service.name method.protoName = handleName service'.name method'.protoName) :
    gen.Clash package := by
  rcases handleName_eq_iff.mp h with ⟨rest, hname, hproto⟩ | ⟨rest, hname, hproto⟩
  · refine ⟨service, hservice, service', hservice', rest, ?_, hname, method, hmethod, method', hmethod',
      hproto⟩
    rintro rfl
    exact hne (by rw [hname, String.append_empty])
  · refine ⟨service', hservice', service, hservice, rest, ?_, hname, method', hmethod', method, hmethod,
      hproto⟩
    rintro rfl
    exact hne (by rw [hname, String.append_empty])

/-- The generated names are pairwise distinct if and only if no annotated method of a service begins with
what another service name adds to the name of its service, and ends as an annotated method of the other. -/
theorem nodup_fileNames_iff (gen : GorumsGenerator) (package : Package) :
    (gen.fileNames package).Nodup ↔ ¬gen.Clash package := by
  rw [fileNames, List.nodup_flatMap]
  constructor
  · rintro ⟨-, hdisjoint⟩ ⟨short, hshort, long, hlong, rest, hrest, hname, method, hmethod, method', hmethod',
      hproto⟩
    have hne : short ≠ long := by
      rintro rfl
      have hlist := congrArg String.toList hname
      rw [String.toList_append, List.self_eq_append_right, String.toList_eq_nil_iff] at hlist
      exact hrest hlist
    have hsymm : Std.Symm (Function.onFun List.Disjoint gen.generate) := ⟨fun _ _ h => h.symm⟩
    refine hdisjoint.forall hshort hlong hne (mem_generate.mpr (Or.inl ⟨method, hmethod, rfl⟩))
      (mem_generate.mpr (Or.inl ⟨method', hmethod', ?_⟩))
    exact handleName_eq_iff.mpr (Or.inl ⟨rest, hname, hproto⟩)
  · intro hclash
    refine ⟨fun service hservice =>
      nodup_generate (package.upperCamel service hservice) (package.methods service hservice), ?_⟩
    refine (List.pairwise_map.mp package.distinct).imp_of_mem fun {a b} ha hb hne name hname hname' => ?_
    obtain ⟨method, hmethod, method', hmethod', heq⟩ :=
      exists_handle_of_mem (package.upperCamel a ha) (package.upperCamel b hb) hne hname hname'
    exact hclash (clash_of_handleName_eq ha hb hne hmethod hmethod' heq)

/-- `service Foo { rpc BarBaz }` and `service FooBar { rpc Baz }`. -/
def twoServices : Package where
  services := [⟨"Foo", "Foo", "p", [⟨"BarBaz"⟩]⟩, ⟨"FooBar", "FooBar", "p", [⟨"Baz"⟩]⟩]
  upperCamel := by
    intro service hservice
    rcases List.mem_pair.mp hservice with rfl | rfl
    · have hlist : "Foo".toList = ['F', 'o', 'o'] := by decide
      exact ⟨⟨'F', _, hlist, by decide⟩, by simp [hlist]⟩
    · have hlist : "FooBar".toList = ['F', 'o', 'o', 'B', 'a', 'r'] := by decide
      exact ⟨⟨'F', _, hlist, by decide⟩, by simp [hlist]⟩
  distinct := by decide
  methods := by decide

/-- Both get the handle `FooBarBazMethod`. -/
theorem not_nodup_twoServices :
    ¬(((configure.method "/p.Foo/BarBaz" .rpcCall).method "/p.FooBar/Baz" .rpcCall).fileNames
      twoServices).Nodup := by
  decide +kernel

end GorumsGenerator

end Quorums.Build
