import Quorums.BaseList
import Quorums.BaseMap
import Quorums.BuildCode
import Quorums.CallEnvelope
import Quorums.HealthProbe
import Quorums.NodeSystem

/-! What the generated code does. Its client functions and its registrations name other items of the file: a
handle, a function of the server trait, message types. Following these names, a call of a client function ends
in the function of the server trait that was written for the same method. -/

namespace Quorums.Build

open Server

/-! ### Names -/

/-- The path begins with a name, and so can be written behind `super::`. The paths of the well-known types
cannot: prost writes `()` for the empty one and `::prost_types::…` for the others. -/
def isRelative (path : String) : Bool :=
  match path.toList with
  | [] => false
  | c :: _ => c.isAlpha || c == '_'

/-- What a path in one of the modules names in the file around it. -/
def resolve (path : String) : Option String :=
  let name := String.ofList (path.toList.drop 7)
  if path.toList.take 7 = "super::".toList ∧ isRelative name = true then some name else none

theorem resolve_superPath {name : String} (h : isRelative name = true) : resolve (superPath name) = some name := by
  have hlength : "super::".toList.length = 7 := by decide
  unfold resolve superPath
  rw [String.toList_append, List.drop_left' hlength, List.take_left' hlength, String.ofList_toList]
  exact if_pos ⟨rfl, h⟩

theorem isRelative_handleName {svcName : String} (h : UpperCamel svcName) (protoName : String) :
    isRelative (handleName svcName protoName) = true := by
  obtain ⟨c, rest, hlist, hc⟩ := h.upper
  unfold isRelative handleName
  rw [String.toList_append, String.toList_append, hlist]
  show (c.isAlpha || c == '_') = true
  rw [Char.isAlpha, hc, Bool.true_or, Bool.true_or]

/-- A name in a proto file. -/
def IsIdent (name : String) : Prop := '/' ∉ name.toList ∧ '.' ∉ name.toList

/-- A list is cut at the last occurrence of an element in one way. -/
theorem eq_of_append_cons_eq {α : Type} {a : α} {xs xs' ys ys' : List α} (hys : a ∉ ys) (hys' : a ∉ ys')
    (h : xs ++ a :: ys = xs' ++ a :: ys') : xs = xs' ∧ ys = ys' := by
  rcases List.append_eq_append_iff.mp h with ⟨as, hxs', htail⟩ | ⟨as, hxs, htail⟩
  · cases as with
    | nil =>
        rw [List.nil_append, List.cons.injEq] at htail
        exact ⟨by rw [hxs', List.append_nil], htail.2⟩
    | cons b as =>
        refine absurd ?_ hys
        rw [(List.cons.inj htail).2]
        exact List.mem_append_right _ (List.mem_cons_self ..)
  · cases as with
    | nil =>
        rw [List.nil_append, List.cons.injEq] at htail
        exact ⟨by rw [hxs, List.append_nil], htail.2.symm⟩
    | cons b as =>
        refine absurd ?_ hys'
        rw [(List.cons.inj htail).2]
        exact List.mem_append_right _ (List.mem_cons_self ..)

theorem toList_fullPath (service : Service) (method : Method) :
    (fullPath service method).toList =
      ('/' :: service.package.toList ++ '.' :: service.protoName.toList) ++ '/' :: method.protoName.toList := by
  have hslash : "/".toList = ['/'] := by decide
  have hdot : ".".toList = ['.'] := by decide
  simp only [fullPath, String.toList_append, hslash, hdot, List.append_assoc, List.cons_append, List.nil_append]

/-- The path of a method tells its service and its name. -/
theorem fullPath_inj {a b : Service} {m n : Method} (ha : IsIdent a.protoName) (hb : IsIdent b.protoName)
    (hm : IsIdent m.protoName) (hn : IsIdent n.protoName) (h : fullPath a m = fullPath b n) :
    a.package = b.package ∧ a.protoName = b.protoName ∧ m.protoName = n.protoName := by
  have hlist := congrArg String.toList h
  rw [toList_fullPath, toList_fullPath] at hlist
  obtain ⟨hservice, hmethod⟩ := eq_of_append_cons_eq hm.1 hn.1 hlist
  obtain ⟨hpackage, hproto⟩ := eq_of_append_cons_eq ha.2 hb.2 hservice
  exact ⟨String.toList_inj.mp (List.cons.inj hpackage).2, String.toList_inj.mp hproto, String.toList_inj.mp hmethod⟩

theorem fullPath_ne_healthMethod (service : Service) {method : Method} (hmethod : IsIdent method.protoName) :
    fullPath service method ≠ Health.healthMethod := by
  intro h
  have hlist := congrArg String.toList h
  have hhealth : Health.healthMethod.toList = "/_gorums".toList ++ '/' :: "health".toList := by decide
  rw [toList_fullPath, hhealth] at hlist
  have hservice := (eq_of_append_cons_eq hmethod.1 (by decide) hlist).1
  have hdot : '.' ∈ "/_gorums".toList := by
    rw [← hservice]
    exact List.mem_append_right _ (List.mem_cons_self ..)
  exact absurd hdot (by decide)

/-- The element of a list with a key, if no two have the same. -/
theorem find?_of_nodup {α β : Type} [DecidableEq β] {l : List α} {k : α → β} (hnodup : (l.map k).Nodup)
    {x : α} (hx : x ∈ l) : (l.find? fun y => k y = k x) = some x := by
  induction l with
  | nil => cases hx
  | cons y l ih =>
      rw [List.map_cons, List.nodup_cons] at hnodup
      rcases List.mem_cons.mp hx with rfl | hx
      · rw [List.find?_cons_of_pos (by simp)]
      · have hne : k y ≠ k x := fun heq => hnodup.1 (heq ▸ List.mem_map_of_mem hx)
        rw [List.find?_cons_of_neg (by simp [hne])]
        exact ih hnodup.2 hx

/-! ### Client functions -/

/-- A client function once its names are followed: the function of `call_types.rs` that it calls, and what the
handle says of the method. -/
structure Stub where
  callee : CallType
  path : String
  req : String
  resp : String
  deriving DecidableEq, Repr

/-- `none` is a client function that does not compile: the handle is not there or lacks the trait, or its types
are not those of the function. -/
def ClientFn.stub? (handles : List Handle) (f : ClientFn) : Option Stub := do
  let name ← resolve f.handle
  let handle ← handles.find? fun handle => handle.name = name
  let i ← handle.impls.find? fun i => i.methodTrait = f.callee.bound
  if resolve f.req = some i.req ∧ (f.callee.bound.twoWay = true → resolve f.resp = some i.resp) then
    some ⟨f.callee, i.path, i.req, i.resp⟩
  else none

/-! ### Registrations -/

/-- The message types of a file by the names that they have in it, and the message `()`. -/
structure Messages where
  Ty : String → Type
  codec : ∀ name, Codec (Ty name)
  unit : Codec Unit

def Output.Result (M : Messages) : Output → Type
  | .twoWay resp => Option (M.Ty resp)
  | .oneWay => Option Unit
  | .correctable => Unit

/-- A function of the server trait, its types by their names in the file. -/
structure Signature where
  name : String
  req : String
  output : Output
  deriving DecidableEq, Repr

/-- An implementation of a server trait. -/
abbrev Impl (M : Messages) :=
  ∀ σ : Signature, Occasion → ServerCtx → M.Ty σ.req → HandlerRun (σ.output.Result M)

/-- The function is registered. Its result is checked against the one that the registration asks for. -/
def Output.install (M : Messages) (srv : Server) (path req : String) : (output : Output) → (streaming : Bool) →
    (Occasion → ServerCtx → M.Ty req → HandlerRun (output.Result M)) → Option Server
  | .twoWay resp, false, f => some (srv.registerHandler path (M.codec req) (M.codec resp) f)
  | .oneWay, false, f => some (srv.registerHandler path (M.codec req) M.unit f)
  | .correctable, true, f => some (srv.registerStreamingHandler path (M.codec req) f)
  | _, _, _ => none

def Output.resolve : Output → Option Output
  | .twoWay resp => (Build.resolve resp).map .twoWay
  | output => some output

def TraitFn.signature? (f : TraitFn) : Option Signature := do
  let req ← resolve f.req
  let output ← f.output.resolve
  some ⟨f.name, req, output⟩

/-- A registration, in the module of a server trait with the functions `fns`. -/
def Registration.run (M : Messages) (impl : Impl M) (fns : List TraitFn) (srv : Server) (r : Registration) :
    Option Server := do
  let f ← fns.find? fun f => f.name = r.fnName
  let σ ← f.signature?
  if resolve r.req = some σ.req then σ.output.install M srv r.path σ.req r.streaming (impl σ) else none

/-- The generated `register_*` function of a service. -/
def GorumsGenerator.register (gen : GorumsGenerator) (M : Messages) (service : RustService) (impl : Impl M)
    (srv : Server) : Option Server :=
  ((gen.items service).map MethodItems.registration).foldlM
    (Registration.run M impl ((gen.items service).map MethodItems.traitFn)) srv

/-! ### A generated file -/

/-- A proto package whose generated file compiles. -/
structure GeneratedFile (gen : GorumsGenerator) where
  package : String
  services : List RustService
  inPackage : ∀ service ∈ services, service.package = package
  upperCamel : ∀ service ∈ services, UpperCamel service.name
  idents : ∀ service ∈ services,
    IsIdent service.protoName ∧ ∀ method ∈ service.methods, IsIdent method.protoName
  services_nodup : (services.map RustService.protoName).Nodup
  methods_nodup : ∀ service ∈ services, (service.methods.map fun method => method.protoName).Nodup
  -- what the compiler checks
  handles_nodup : ((services.flatMap gen.items).map fun i => i.handle.name).Nodup
  fns_nodup : ∀ service ∈ services, ((gen.items service).map fun i => i.traitFn.name).Nodup
  types : ∀ service ∈ services, ∀ method ∈ service.methods, ∀ callType,
    gen.callType? service method = some callType → isRelative method.inputType = true ∧
      (callType.bound.twoWay = true → isRelative method.outputType = true)

/-- The function of the server trait for a method. -/
def signature (method : RustMethod) (callType : CallType) : Signature :=
  ⟨method.name, method.inputType, callType.output method.outputType⟩

/-- The handler that a registration makes of a function. -/
def Output.handler (M : Messages) (req : String) : (output : Output) →
    (Occasion → ServerCtx → M.Ty req → HandlerRun (output.Result M)) → Handler
  | .twoWay resp, f => .twoWay fun occasion ctx payload =>
      match (M.codec req).decode payload with
      | .error _ => none
      | .ok r => some (HandlerRun.encode (M.codec resp) (f occasion ctx r))
  | .oneWay, f => .twoWay fun occasion ctx payload =>
      match (M.codec req).decode payload with
      | .error _ => none
      | .ok r => some (HandlerRun.encode M.unit (f occasion ctx r))
  | .correctable, f => .streaming fun occasion ctx payload =>
      match (M.codec req).decode payload with
      | .error _ => none
      | .ok r => some (f occasion ctx r)

def Signature.handler (M : Messages) (σ : Signature) (impl : Impl M) : Handler :=
  σ.output.handler M σ.req (impl σ)

theorem Output.install_eq (M : Messages) (srv : Server) (path req : String) (output : Output)
    (f : Occasion → ServerCtx → M.Ty req → HandlerRun (output.Result M)) {streaming : Bool}
    (hstreaming : streaming = true ↔ output = .correctable) :
    output.install M srv path req streaming f =
      some { srv with handlers := srv.handlers.insert path (output.handler M req f) } := by
  cases output with
  | twoWay resp =>
      obtain rfl : streaming = false := by simpa using hstreaming
      show some (srv.registerHandler path (M.codec req) (M.codec resp) f) = _
      unfold Server.registerHandler Output.handler
      congr 4
      funext occasion ctx payload
      cases (M.codec req).decode payload <;> rfl
  | oneWay =>
      obtain rfl : streaming = false := by simpa using hstreaming
      show some (srv.registerHandler path (M.codec req) M.unit f) = _
      unfold Server.registerHandler Output.handler
      congr 4
      funext occasion ctx payload
      cases (M.codec req).decode payload <;> rfl
  | correctable =>
      obtain rfl : streaming = true := by simpa using hstreaming
      show some (srv.registerStreamingHandler path (M.codec req) f) = _
      unfold Server.registerStreamingHandler Output.handler
      congr 4
      funext occasion ctx payload
      cases (M.codec req).decode payload <;> rfl

section Items

variable {gen : GorumsGenerator} {service : RustService} {method : RustMethod} {callType : CallType}

theorem CallType.output_eq_correctable (resp : String) (callType : CallType) :
    callType.output resp = .correctable ↔ callType = .correctable := by
  cases callType <;> simp [CallType.output]

/-- An item of a service is that of one of its annotated methods. -/
theorem mem_items {i : MethodItems} : i ∈ gen.items service ↔ ∃ method ∈ service.methods, ∃ callType,
    gen.callType? service method = some callType ∧ i = methodItems service method callType := by
  unfold GorumsGenerator.items
  simp only [List.mem_filterMap, Option.map_eq_some_iff]
  constructor
  · rintro ⟨method, hmethod, callType, hcall, rfl⟩
    exact ⟨method, hmethod, callType, hcall, rfl⟩
  · rintro ⟨method, hmethod, callType, hcall, rfl⟩
    exact ⟨method, hmethod, callType, hcall, rfl⟩

/-- The annotated methods of a service. -/
def GorumsGenerator.calls (gen : GorumsGenerator) (service : RustService) :
    List (RustService × RustMethod × CallType) :=
  service.methods.filterMap fun method =>
    (gen.callType? service method).map fun callType => (service, method, callType)

theorem items_eq : gen.items service = (gen.calls service).map fun c => methodItems c.1 c.2.1 c.2.2 := by
  unfold GorumsGenerator.items GorumsGenerator.calls
  rw [List.map_filterMap]
  simp only [Option.map_map]
  rfl

/-- The names at file level are those of the items. -/
theorem generate_toService (gen : GorumsGenerator) (service : RustService) :
    gen.generate service.toService =
      if gen.items service = [] then []
      else (gen.items service).map (fun i => i.handle.name) ++ [clientMod service.name, serverMod service.name] := by
  have hnames : (gen.annotated service.toService).map (fun method => handleName service.name method.protoName) =
      (gen.items service).map fun i => i.handle.name := by
    show ((service.methods.map RustMethod.toMethod).filter fun method =>
      (gen.methods.lookup (fullPath service.toService method)).isSome).map _ = List.map _ (List.filterMap _ _)
    rw [List.filter_map, List.map_map, List.map_filterMap]
    induction service.methods with
    | nil => rfl
    | cons method methods ih =>
        rw [List.filter_cons, List.filterMap_cons, GorumsGenerator.callType?]
        cases hcall : gen.methods.lookup (fullPath service.toService method.toMethod) with
        | none => simpa [hcall] using ih
        | some callType => simpa [hcall, methodItems] using ih
  have hnil : gen.annotated service.toService = [] ↔ gen.items service = [] := by
    rw [← List.map_eq_nil_iff, hnames, List.map_eq_nil_iff]
  unfold GorumsGenerator.generate
  simp only [hnil]
  rw [← hnames]
  rfl

theorem mem_generatorCalls {c : RustService × RustMethod × CallType} : c ∈ gen.calls service ↔
    c.1 = service ∧ c.2.1 ∈ service.methods ∧ gen.callType? service c.2.1 = some c.2.2 := by
  unfold GorumsGenerator.calls
  simp only [List.mem_filterMap, Option.map_eq_some_iff]
  constructor
  · rintro ⟨method, hmethod, callType, hcall, rfl⟩
    exact ⟨rfl, hmethod, hcall⟩
  · intro ⟨hservice, hmethod, hcall⟩
    exact ⟨c.2.1, hmethod, c.2.2, hcall, by rw [← hservice]⟩

def pathOf (c : RustService × RustMethod × CallType) : String := fullPath c.1.toService c.2.1.toMethod

def handlerOf (M : Messages) (impl : RustService → Impl M) (c : RustService × RustMethod × CallType) : Handler :=
  (signature c.2.1 c.2.2).handler M (impl c.1)

/-- The server with the handler for a method. -/
def installed (M : Messages) (impl : RustService → Impl M) (srv : Server)
    (c : RustService × RustMethod × CallType) : Server :=
  { srv with handlers := srv.handlers.insert (pathOf c) (handlerOf M impl c) }

theorem foldl_installed (M : Messages) (impl : RustService → Impl M)
    (calls : List (RustService × RustMethod × CallType)) (srv : Server) :
    calls.foldl (installed M impl) srv =
      { srv with handlers := calls.foldl (fun t c => t.insert (pathOf c) (handlerOf M impl c)) srv.handlers } := by
  induction calls generalizing srv with
  | nil => rfl
  | cons c calls ih => exact ih (installed M impl srv c)

theorem signature?_traitFn (hreq : isRelative method.inputType = true)
    (hresp : callType.bound.twoWay = true → isRelative method.outputType = true) :
    (methodItems service method callType).traitFn.signature? = some (signature method callType) := by
  have houtput : (callType.output (superPath method.outputType)).resolve =
      some (callType.output method.outputType) := by
    cases callType <;>
      simp_all [CallType.output, Output.resolve, CallType.bound, MethodTrait.twoWay, resolve_superPath]
  unfold TraitFn.signature? methodItems
  simp only [resolve_superPath hreq, houtput]
  rfl

end Items

namespace GeneratedFile

variable {gen : GorumsGenerator} (file : GeneratedFile gen) {service service' : RustService}
  {method method' : RustMethod} {callType : CallType}

/-- The handles at file level. -/
def handles : List Handle := (file.services.flatMap gen.items).map MethodItems.handle

/-- The paths of the registrations. -/
def paths : List String := (file.services.flatMap gen.items).map fun i => i.registration.path

/-- The `register_*` functions of all the services, one after the other. -/
def register (M : Messages) (impl : RustService → Impl M) (srv : Server) : Option Server :=
  file.services.foldlM (fun srv service => gen.register M service (impl service) srv) srv

/-- The client function of a method that is annotated finds its handle, and the handle the method. -/
theorem stub?_clientFn (hservice : service ∈ file.services) (hmethod : method ∈ service.methods)
    (hcall : gen.callType? service method = some callType) :
    (methodItems service method callType).clientFn.stub? file.handles =
      some ⟨callType, fullPath service.toService method.toMethod, method.inputType, method.outputType⟩ := by
  obtain ⟨hreq, hresp⟩ := file.types service hservice method hmethod callType hcall
  have hitem : methodItems service method callType ∈ file.services.flatMap gen.items :=
    List.mem_flatMap.mpr ⟨service, hservice, mem_items.mpr ⟨method, hmethod, callType, hcall, rfl⟩⟩
  have hname : resolve (methodItems service method callType).clientFn.handle =
      some (methodItems service method callType).handle.name :=
    resolve_superPath (isRelative_handleName (file.upperCamel service hservice) _)
  have hhandle : (file.handles.find? fun handle => handle.name = (methodItems service method callType).handle.name) =
      some (methodItems service method callType).handle := by
    apply find?_of_nodup (k := Handle.name)
    · rw [handles, List.map_map]
      exact file.handles_nodup
    · exact List.mem_map_of_mem hitem
  have himpl : ((methodItems service method callType).handle.impls.find? fun i =>
      i.methodTrait = (methodItems service method callType).clientFn.callee.bound) =
        some ⟨callType.bound, method.inputType, method.outputType,
          fullPath service.toService method.toMethod⟩ := by
    cases callType <;> rfl
  unfold ClientFn.stub?
  rw [hname]
  simp only [Option.bind_eq_bind, Option.bind_some, hhandle, himpl]
  rw [if_pos]
  · rfl
  · exact ⟨resolve_superPath hreq, fun htwoWay => resolve_superPath (hresp htwoWay)⟩

/-- A registration finds the function of the trait that was written for the same method. -/
theorem run_registration (M : Messages) (impl : Impl M) (srv : Server) (hservice : service ∈ file.services)
    (hmethod : method ∈ service.methods) (hcall : gen.callType? service method = some callType) :
    (methodItems service method callType).registration.run M impl ((gen.items service).map MethodItems.traitFn) srv =
      some { srv with
        handlers := srv.handlers.insert (fullPath service.toService method.toMethod)
          ((signature method callType).handler M impl) } := by
  obtain ⟨hreq, hresp⟩ := file.types service hservice method hmethod callType hcall
  have hfn : (((gen.items service).map MethodItems.traitFn).find? fun f =>
      f.name = (methodItems service method callType).registration.fnName) =
        some (methodItems service method callType).traitFn := by
    have hnodup := file.fns_nodup service hservice
    have hitem := mem_items.mpr ⟨method, hmethod, callType, hcall, rfl⟩
    rw [← Function.comp_def, ← List.map_map] at hnodup
    exact find?_of_nodup (k := TraitFn.name) hnodup (List.mem_map_of_mem hitem)
  unfold Registration.run
  simp only [Option.bind_eq_bind, hfn, Option.bind_some, signature?_traitFn hreq hresp]
  rw [if_pos]
  · exact Output.install_eq M srv _ _ _ _ (decide_eq_true_iff.trans (CallType.output_eq_correctable _ _).symm)
  · exact resolve_superPath hreq

/-! ### All registrations -/

/-- The annotated methods of the file. -/
def calls : List (RustService × RustMethod × CallType) := file.services.flatMap gen.calls

theorem mem_calls {c : RustService × RustMethod × CallType} : c ∈ file.calls ↔
    c.1 ∈ file.services ∧ c.2.1 ∈ c.1.methods ∧ gen.callType? c.1 c.2.1 = some c.2.2 := by
  unfold calls
  rw [List.mem_flatMap]
  constructor
  · intro ⟨service, hservice, hc⟩
    obtain ⟨rfl, hmethod, hcall⟩ := mem_generatorCalls.mp hc
    exact ⟨hservice, hmethod, hcall⟩
  · intro ⟨hservice, hmethod, hcall⟩
    exact ⟨c.1, hservice, mem_generatorCalls.mpr ⟨rfl, hmethod, hcall⟩⟩

/-- A service registers one handler per annotated method. -/
theorem register_service (M : Messages) (impl : RustService → Impl M) (srv : Server)
    (hservice : service ∈ file.services) :
    gen.register M service (impl service) srv = some ((gen.calls service).foldl (installed M impl) srv) := by
  have hstep : ∀ (srv : Server), ∀ c ∈ gen.calls service,
      Registration.run M (impl service) ((gen.items service).map MethodItems.traitFn) srv
        (methodItems c.1 c.2.1 c.2.2).registration = some (installed M impl srv c) := by
    intro srv c hc
    obtain ⟨rfl, hmethod, hcall⟩ := mem_generatorCalls.mp hc
    exact file.run_registration M (impl c.1) srv hservice hmethod hcall
  unfold GorumsGenerator.register
  generalize (gen.items service).map MethodItems.traitFn = fns at hstep ⊢
  rw [items_eq, List.map_map, List.foldlM_map]
  exact (PartialLoop.foldlM_congr hstep srv).trans List.foldlM_pure

theorem register_eq (M : Messages) (impl : RustService → Impl M) (srv : Server) :
    file.register M impl srv = some (file.calls.foldl (installed M impl) srv) := by
  unfold register calls
  rw [List.foldl_flatMap]
  have hstep : ∀ (srv : Server), ∀ service ∈ file.services, gen.register M service (impl service) srv =
      some ((gen.calls service).foldl (installed M impl) srv) := by
    intro srv service hservice
    exact file.register_service M impl srv hservice
  exact (PartialLoop.foldlM_congr hstep srv).trans List.foldlM_pure

/-- Two methods do not have one path. -/
theorem eq_of_pathOf_eq {c d : RustService × RustMethod × CallType} (hc : c ∈ file.calls) (hd : d ∈ file.calls)
    (h : pathOf c = pathOf d) : c = d := by
  obtain ⟨service, method, callType⟩ := c
  obtain ⟨service', method', callType'⟩ := d
  obtain ⟨hservice, hmethod, hcall⟩ := file.mem_calls.mp hc
  obtain ⟨hservice', hmethod', hcall'⟩ := file.mem_calls.mp hd
  dsimp only at hservice hmethod hcall hservice' hmethod' hcall'
  obtain ⟨-, hproto, hname⟩ := fullPath_inj (file.idents _ hservice).1 (file.idents _ hservice').1
    ((file.idents _ hservice).2 _ hmethod) ((file.idents _ hservice').2 _ hmethod') h
  obtain rfl : service = service' := List.inj_on_of_nodup_map file.services_nodup hservice hservice' hproto
  obtain rfl : method = method' := List.inj_on_of_nodup_map (file.methods_nodup _ hservice) hmethod hmethod' hname
  rw [hcall, Option.some.injEq] at hcall'
  rw [hcall']

/-- What is registered for a method. -/
theorem lookup_register (M : Messages) (impl : RustService → Impl M) (srv : Server)
    {c : RustService × RustMethod × CallType} (hc : c ∈ file.calls) :
    (file.calls.foldl (installed M impl) srv).handlers.lookup (pathOf c) = some (handlerOf M impl c) := by
  rw [foldl_installed]
  show AList.lookup (pathOf c) (file.calls.foldl _ srv.handlers) = _
  rw [HashMap.lookup_foldl_insert]
  cases hfind : file.calls.reverse.find? fun d => decide (pathOf d = pathOf c) with
  | none => exact absurd (decide_eq_true rfl) (List.find?_eq_none.mp hfind c (List.mem_reverse.mpr hc))
  | some d =>
      have hd := List.mem_reverse.mp (List.mem_of_find?_eq_some hfind)
      have hpath : pathOf d = pathOf c := by simpa using List.find?_some hfind
      rw [file.eq_of_pathOf_eq hd hc hpath]
      rfl

/-- **The generated code is linked right.** For every package whose file compiles and every implementation of its
server traits: the registrations go through; the client function of an annotated method is called with the types of
this method and under the path at which the function of the server trait for it is registered; a path that is none
of the package keeps its handler, and so does the one of the health probe. -/
theorem linked (M : Messages) (impl : RustService → Impl M) (srv : Server) :
    ∃ srv', file.register M impl srv = some srv' ∧ srv'.interceptors = srv.interceptors ∧
      (∀ service ∈ file.services, ∀ method ∈ service.methods, ∀ callType,
        gen.callType? service method = some callType →
          ∃ path, (methodItems service method callType).clientFn.stub? file.handles =
              some ⟨callType, path, method.inputType, method.outputType⟩ ∧
            srv'.handlers.lookup path = some ((signature method callType).handler M (impl service))) ∧
      (∀ path, path ∉ file.calls.map pathOf → srv'.handlers.lookup path = srv.handlers.lookup path) ∧
      srv'.handlers.lookup Health.healthMethod = srv.handlers.lookup Health.healthMethod := by
  have hframe : ∀ path, path ∉ file.calls.map pathOf →
      (file.calls.foldl (installed M impl) srv).handlers.lookup path = srv.handlers.lookup path := by
    intro path hpath
    rw [foldl_installed]
    show AList.lookup path (file.calls.foldl _ srv.handlers) = _
    rw [HashMap.lookup_foldl_insert, List.find?_eq_none.mpr]
    · rfl
    · intro c hc heq
      rw [decide_eq_true_iff] at heq
      exact hpath (List.mem_map.mpr ⟨c, List.mem_reverse.mp hc, heq⟩)
  refine ⟨_, file.register_eq M impl srv, ?_, ?_, hframe, hframe _ ?_⟩
  · rw [foldl_installed]
  · intro service hservice method hmethod callType hcall
    refine ⟨_, file.stub?_clientFn hservice hmethod hcall, ?_⟩
    exact file.lookup_register M impl srv (c := (service, method, callType))
      (file.mem_calls.mpr ⟨hservice, hmethod, hcall⟩)
  · intro hmem
    obtain ⟨c, hc, hpath⟩ := List.mem_map.mp hmem
    obtain ⟨hservice, hmethod, -⟩ := file.mem_calls.mp hc
    exact fullPath_ne_healthMethod _ ((file.idents _ hservice).2 _ hmethod) hpath

end GeneratedFile

/-! ### The storage service -/

/-- `service Storage` of `storage.proto`. -/
def storageService : RustService :=
  ⟨"Storage", "Storage", "storage", [⟨⟨"Read"⟩, "read", "ReadRequest", "ReadResponse"⟩,
    ⟨⟨"Write"⟩, "write", "WriteRequest", "ReadResponse"⟩]⟩

def storageGen (read : CallType) : GorumsGenerator :=
  (GorumsGenerator.configure.method "/storage.Storage/Read" read).method "/storage.Storage/Write" .multicast

theorem callType?_storage (read : CallType) :
    (storageGen read).callType? storageService ⟨⟨"Read"⟩, "read", "ReadRequest", "ReadResponse"⟩ =
      some read := by
  cases read <;> decide +kernel

def storageFile (read : CallType) : GeneratedFile (storageGen read) where
  package := "storage"
  services := [storageService]
  inPackage := by decide
  upperCamel := by
    intro service hservice
    obtain rfl := List.mem_singleton.mp hservice
    have hlist : "Storage".toList = ['S', 't', 'o', 'r', 'a', 'g', 'e'] := by decide
    exact ⟨⟨'S', _, hlist, by decide⟩, by simp [storageService, hlist]⟩
  idents := by
    unfold IsIdent
    decide +kernel
  services_nodup := by decide
  methods_nodup := by decide
  handles_nodup := by cases read <;> decide +kernel
  fns_nodup := by cases read <;> decide +kernel
  types := by
    intro service hservice method hmethod callType hcall
    obtain rfl := List.mem_singleton.mp hservice
    rcases List.mem_pair.mp hmethod with rfl | rfl
    · exact ⟨by decide +kernel, fun _ => by decide +kernel⟩
    · exact ⟨by decide +kernel, fun _ => by decide +kernel⟩

/-- The messages with one `bool` field in place of those of `storage.proto`. -/
def boolMessages : Messages :=
  ⟨fun _ => Bool, fun _ => boolCodec, emptyCodec⟩

/-- Negates its request. A stream gets the request before. -/
def invert : Impl boolMessages
  | ⟨_, _, .twoWay _⟩, _, _, (x : Bool) => ⟨[.release], true, .ok (some !x)⟩
  | ⟨_, _, .oneWay⟩, _, _, _ => ⟨[], false, .ok none⟩
  | ⟨_, _, .correctable⟩, _, _, (x : Bool) =>
      ⟨[.send (boolCodec.encode x), .send (boolCodec.encode !x)], true, .ok ()⟩

theorem passes_storage (read : CallType) (wire : Message) :
    Passes ((storageFile read).calls.foldl (installed boolMessages fun _ => invert) ⟨∅, []⟩) (0, 0) none
      wire := by
  rw [foldl_installed]
  rfl

/-! ### Answers -/

section Answers

variable {r : Router} {seq c : Nat} {messages : List Message}

/-- What comes under a number without an entry changes nothing. -/
theorem foldl_receive_of_lookup_none (h : r.inner.lookup seq = none)
    (hseq : ∀ m ∈ messages, m.messageSeqNo = seq) : messages.foldl Router.receive r = r := by
  induction messages with
  | nil => rfl
  | cons m messages ih =>
      have hm : r.inner.lookup m.messageSeqNo = none := by rw [hseq m (List.mem_cons_self ..), h]
      rw [List.foldl_cons, Router.receive_of_lookup_none hm]
      exact ih fun m' hm' => hseq m' (List.mem_cons_of_mem _ hm')

/-- A caller that waits for one reply gets the first one. -/
theorem rpcOutcome_cons {Resp : Type} (resp : Codec Resp) {m : Message}
    (hpending : r.inner.lookup seq = some (.response c)) (hempty : r.boxes c = Mailbox.empty)
    (hseq : ∀ m' ∈ m :: messages, m'.messageSeqNo = seq)
    (hdone : m.statusCode ≠ statusStreamDone) :
    rpcOutcome resp r c (m :: messages) = some (rpcReturn resp (Router.resultOf m)) := by
  have hm : m.messageSeqNo = seq := hseq m (List.mem_cons_self ..)
  have hnone : (r.receive m).inner.lookup seq = none := by
    rw [Router.receive, if_neg hdone, Router.deliver, hm, hpending]
    exact AList.lookup_erase _ _
  have hitems : ((r.receive m).boxes c).items = [Router.resultOf m] :=
    Router.items_receive_response (by rw [hm, hpending]) hempty hdone
  unfold rpcOutcome
  rw [List.foldl_cons, foldl_receive_of_lookup_none hnone fun m' hm' => hseq m' (List.mem_cons_of_mem _ hm'), hitems]
  rfl

/-- A caller that listens to a stream gets what comes before its end. -/
theorem foldl_receive_stream (hpending : r.inner.lookup seq = some (.stream c))
    (hopen : (r.boxes c).dropped = false) (hseq : ∀ m ∈ messages, m.messageSeqNo = seq)
    (hdone : ∀ m ∈ messages, m.statusCode ≠ statusStreamDone) :
    (messages.foldl Router.receive r).inner = r.inner ∧
      (messages.foldl Router.receive r).boxes c =
        ⟨(r.boxes c).items ++ messages.map Router.resultOf, (r.boxes c).closed, false⟩ := by
  induction messages generalizing r with
  | nil =>
      refine ⟨rfl, ?_⟩
      rw [List.map_nil, List.append_nil, ← hopen]
      rfl
  | cons m messages ih =>
      have hm : r.inner.lookup m.messageSeqNo = some (.stream c) := by rw [hseq m (List.mem_cons_self ..), hpending]
      have hreceive : r.receive m = r.onBox c fun b => b.send (Router.resultOf m) := by
        rw [Router.receive, if_neg (hdone m (List.mem_cons_self ..)), Router.deliver, hm]
        dsimp only
        rw [hopen, if_neg (by decide)]
      have hbox : (r.receive m).boxes c =
          ⟨(r.boxes c).items ++ [Router.resultOf m], (r.boxes c).closed, false⟩ := by
        rw [hreceive, Router.boxes_onBox_self, Mailbox.send, hopen, if_neg (by decide)]
      have hinner : (r.receive m).inner = r.inner := by rw [hreceive]; rfl
      rw [List.foldl_cons]
      have htail := ih (r := r.receive m) (by rw [hinner, hpending]) (by rw [hbox])
        (fun m' hm' => hseq m' (List.mem_cons_of_mem _ hm')) fun m' hm' => hdone m' (List.mem_cons_of_mem _ hm')
      refine ⟨htail.1.trans hinner, ?_⟩
      rw [htail.2, hbox, List.map_cons]
      simp only [List.append_assoc, List.singleton_append]

/-- The end of a stream. -/
theorem receive_doneReply (hpending : r.inner.lookup seq = some (.stream c)) (method : String) :
    (r.receive (doneReply seq method)).inner.lookup seq = none ∧
      (r.receive (doneReply seq method)).boxes c = (r.boxes c).close := by
  have hreceive : r.receive (doneReply seq method) =
      { r.onBox c Mailbox.close with inner := r.inner.erase seq } := by
    have hclose : r.closeStream seq = { r.onBox c Mailbox.close with inner := r.inner.erase seq } := by
      rw [Router.closeStream, hpending]
      rfl
    exact hclose
  rw [hreceive]
  exact ⟨AList.lookup_erase _ _, Router.boxes_onBox_self _⟩

end Answers

section Handlers

variable {M : Messages} {impl : Impl M} {srv : Server} {name req path : String}

/-- The answers to a request of a method with a two-way function. -/
theorem answers_handler_twoWay {resp : String}
    (hlookup : srv.handlers.lookup path = some (Signature.handler M ⟨name, req, .twoWay resp⟩ impl))
    (seq : Nat) (metadata : List (String × String)) (x : M.Ty req) (occasion : Occasion) (peerAddr : Option String) :
    let wire := Node.buildWireMessage seq path (encodePayload (M.codec req) x) metadata
    let run : HandlerRun (Option (M.Ty resp)) := impl ⟨name, req, .twoWay resp⟩ occasion ⟨seq, path, metadata⟩ x
    Passes srv occasion peerAddr wire → answers srv occasion peerAddr wire =
      (run.acts.filterMap HandlerAct.pushed).map (okReply seq path) ++
        ((Verdict.returned run.result).reply (M.codec resp) wire).toList := by
  intro wire run hpass
  refine answers_twoWay (r := run.encode (M.codec resp)) hpass hlookup ?_
  show (match (M.codec req).decode ((M.codec req).encode x) with
    | .error _ => none
    | .ok x => some (HandlerRun.encode (M.codec resp)
        (impl ⟨name, req, .twoWay resp⟩ occasion ⟨seq, path, metadata⟩ x))) = _
  rw [(M.codec req).decode_encode]

/-- The answers to a request of a method with a streaming function. -/
theorem answers_handler_correctable
    (hlookup : srv.handlers.lookup path = some (Signature.handler M ⟨name, req, .correctable⟩ impl))
    (seq : Nat) (metadata : List (String × String)) (x : M.Ty req) (occasion : Occasion) (peerAddr : Option String) :
    let wire := Node.buildWireMessage seq path (encodePayload (M.codec req) x) metadata
    let run : HandlerRun Unit := impl ⟨name, req, .correctable⟩ occasion ⟨seq, path, metadata⟩ x
    Passes srv occasion peerAddr wire → answers srv occasion peerAddr wire =
      (run.acts.filterMap HandlerAct.pushed).map (okReply seq path) ++
        emissions (streamingError ⟨seq, path, metadata⟩ run.result) ++ [doneReply seq path] := by
  intro wire run hpass
  refine answers_streaming (r := run) hpass hlookup ?_
  show (match (M.codec req).decode ((M.codec req).encode x) with
    | .error _ => none
    | .ok x => some (impl ⟨name, req, .correctable⟩ occasion ⟨seq, path, metadata⟩ x)) = _
  rw [(M.codec req).decode_encode]
  rfl

/-- The caller reads what the verdict says. -/
theorem rpcReturn_reply {Resp : Type} {resp : Codec Resp} {wire : Message} {result : Except Status (Option Resp)}
    (hstatus : ∀ status, result = .error status → status.code ≠ .ok) :
    ((Verdict.returned result).reply resp wire).map (fun m => rpcReturn resp (Router.resultOf m)) =
      (Verdict.returned result).expected := by
  cases result with
  | error status =>
      show some (rpcReturn resp (Router.resultOf (errorReply _ _ status))) = some (.error (.transport status))
      rw [(rpcReturn_errorReply_iff _ _ status).mpr (hstatus status rfl)]
  | ok x =>
      cases x with
      | none => rfl
      | some x =>
          show some (rpcReturn resp (Router.resultOf (okReply _ _ (encodePayload resp x)))) = some (.ok x)
          rw [Router.resultOf_okReply, rpcReturn_okReply]

end Handlers

namespace GeneratedFile

variable {gen : GorumsGenerator} (file : GeneratedFile gen) {service : RustService} {method : RustMethod}
  {callType : CallType} {M : Messages} {impl : RustService → Impl M} {srv srv' : Server}

/-- What is registered for a method, as a handler for its signature. -/
theorem lookup_of_register (hregister : file.register M impl srv = some srv') (hservice : service ∈ file.services)
    (hmethod : method ∈ service.methods) (hcall : gen.callType? service method = some callType) (σ : Signature)
    (hσ : signature method callType = σ) :
    srv'.handlers.lookup (fullPath service.toService method.toMethod) = some (σ.handler M (impl service)) := by
  rw [file.register_eq, Option.some.injEq] at hregister
  rw [← hregister, ← hσ]
  exact file.lookup_register M impl srv (c := (service, method, callType))
    (file.mem_calls.mpr ⟨hservice, hmethod, hcall⟩)

/-- **A two-way call reaches the function of its method.** For every method that is annotated as a two-way call
and every request: the server answers the message that the generated client function sends with what the function
of the server trait returns for this very request, and that is what the caller reads. A response that the function
pushes before it returns takes the place of the one that it returns. -/
theorem generated_call (hregister : file.register M impl srv = some srv') (hservice : service ∈ file.services)
    (hmethod : method ∈ service.methods) (hcall : gen.callType? service method = some callType)
    (htwoWay : callType.output method.outputType = .twoWay method.outputType) :
    ∃ path, (methodItems service method callType).clientFn.stub? file.handles =
        some ⟨callType, path, method.inputType, method.outputType⟩ ∧
      ∀ (seq : Nat) (metadata : List (String × String)) (x : M.Ty method.inputType) (occasion : Occasion)
        (peerAddr : Option String),
        let wire := Node.buildWireMessage seq path (encodePayload (M.codec method.inputType) x) metadata
        let run : HandlerRun (Option (M.Ty method.outputType)) :=
          impl service ⟨method.name, method.inputType, .twoWay method.outputType⟩ occasion ⟨seq, path, metadata⟩ x
        Passes srv' occasion peerAddr wire → (∀ status, run.result = .error status → status.code ≠ .ok) →
        ∀ (r : Router) (c : Nat), r.inner.lookup seq = some (.response c) → r.boxes c = Mailbox.empty →
          rpcOutcome (M.codec method.outputType) r c (answers srv' occasion peerAddr wire) =
            match run.acts.filterMap HandlerAct.pushed with
            | [] => (Verdict.returned run.result).expected
            | payload :: _ => some (rpcReturn (M.codec method.outputType) (.ok (okReply seq path payload))) := by
  refine ⟨_, file.stub?_clientFn hservice hmethod hcall, ?_⟩
  intro seq metadata x occasion peerAddr wire run hpass hstatus r c hpending hempty
  have hlookup := file.lookup_of_register hregister hservice hmethod hcall ⟨_, _, .twoWay method.outputType⟩
    (by rw [signature, htwoWay])
  have hanswers : answers srv' occasion peerAddr wire =
      (run.acts.filterMap HandlerAct.pushed).map (okReply seq _) ++
        ((Verdict.returned run.result).reply (M.codec method.outputType) wire).toList :=
    answers_handler_twoWay hlookup seq metadata x occasion peerAddr hpass
  have hseq : ∀ m ∈ answers srv' occasion peerAddr wire, m.messageSeqNo = seq := by
    intro m hm
    exact beq_iff_eq.mp (List.mem_filter.mp hm).2
  rw [hanswers] at hseq ⊢
  generalize run.acts.filterMap HandlerAct.pushed = pushed at hseq ⊢
  cases pushed with
  | nil =>
      rw [List.map_nil, List.nil_append, rpcOutcome_reply hpending hempty]
      exact rpcReturn_reply hstatus
  | cons payload rest =>
      rw [List.map_cons, List.cons_append] at hseq ⊢
      rw [rpcOutcome_cons _ hpending hempty hseq (by simp [okReply, statusStreamDone]), Router.resultOf_okReply]

theorem generated_call_read : ∃ path srv,
    (storageFile .quorumCall).register boolMessages (fun _ => invert) ⟨∅, []⟩ = some srv ∧
      rpcOutcome boolCodec invertRouter 0
        (answers srv (0, 0) none (Node.buildWireMessage 1 path [8, 1] [])) = some (.ok false) := by
  have hregister := (storageFile .quorumCall).register_eq boolMessages (fun _ => invert) ⟨∅, []⟩
  obtain ⟨path, -, hcall⟩ := (storageFile .quorumCall).generated_call hregister (List.mem_singleton.mpr rfl)
    (List.mem_cons_self ..) (callType?_storage .quorumCall) rfl
  refine ⟨path, _, hregister, ?_⟩
  exact hcall 1 [] true (0, 0) none (passes_storage _ _) (fun status hstatus => by cases hstatus) invertRouter 0
    rfl rfl

/-- **A streaming call reaches the function of its method.** For every method that is annotated as a correctable
call and every request: the caller reads the responses that the function of the server trait pushes for this very
request, in their order, after them the error with which it ends, if it does, and then the end of the stream. -/
theorem generated_stream (hregister : file.register M impl srv = some srv') (hservice : service ∈ file.services)
    (hmethod : method ∈ service.methods) (hcall : gen.callType? service method = some .correctable) :
    ∃ path, (methodItems service method .correctable).clientFn.stub? file.handles =
        some ⟨.correctable, path, method.inputType, method.outputType⟩ ∧
      ∀ (seq : Nat) (metadata : List (String × String)) (x : M.Ty method.inputType) (occasion : Occasion)
        (peerAddr : Option String) (pushed : List (M.Ty method.outputType)),
        let wire := Node.buildWireMessage seq path (encodePayload (M.codec method.inputType) x) metadata
        let run : HandlerRun Unit :=
          impl service ⟨method.name, method.inputType, .correctable⟩ occasion ⟨seq, path, metadata⟩ x
        Passes srv' occasion peerAddr wire → (∀ status, run.result = .error status → status.code ≠ .ok) →
        run.acts.filterMap HandlerAct.pushed = pushed.map (encodePayload (M.codec method.outputType)) →
        ∀ (r : Router) (c : Nat), r.inner.lookup seq = some (.stream c) → r.boxes c = Mailbox.empty →
          let r' := (answers srv' occasion peerAddr wire).foldl Router.receive r
          (r'.boxes c).items.map (rpcReturn (M.codec method.outputType)) = pushed.map Except.ok ++
              (match run.result with
              | .ok () => []
              | .error status => [.error (.transport status)]) ∧
            (r'.boxes c).closed = true ∧ r'.inner.lookup seq = none := by
  have hlookup := file.lookup_of_register hregister hservice hmethod hcall ⟨_, _, .correctable⟩ rfl
  have hstub := file.stub?_clientFn hservice hmethod hcall
  generalize fullPath service.toService method.toMethod = path at hlookup hstub
  refine ⟨path, hstub, ?_⟩
  intro seq metadata x occasion peerAddr pushed wire run hpass hstatus hpushed r c hpending hempty
  have hanswers : answers srv' occasion peerAddr wire =
      (run.acts.filterMap HandlerAct.pushed).map (okReply seq path) ++
        emissions (streamingError ⟨seq, path, metadata⟩ run.result) ++ [doneReply seq path] :=
    answers_handler_correctable hlookup seq metadata x occasion peerAddr hpass
  rw [hpushed, List.map_map] at hanswers
  have hseq : ∀ m ∈ answers srv' occasion peerAddr wire, m.messageSeqNo = seq := by
    intro m hm
    exact beq_iff_eq.mp (List.mem_filter.mp hm).2
  -- before the end of the stream there is no end
  have hdone : ∀ m ∈ pushed.map (okReply seq path ∘ encodePayload (M.codec method.outputType)) ++
      emissions (streamingError ⟨seq, path, metadata⟩ run.result), m.statusCode ≠ statusStreamDone := by
    intro m hm
    rcases List.mem_append.mp hm with hm | hm
    · obtain ⟨y, -, rfl⟩ := List.mem_map.mp hm
      simp [okReply, statusStreamDone]
    · cases hresult : run.result with
      | ok u => simp [hresult, streamingError] at hm
      | error status =>
          simp only [hresult, streamingError, emissions_emit, emissions_nil, List.mem_singleton] at hm
          rw [hm]
          exact asU32_ne_streamDone status.code
  rw [hanswers] at hseq ⊢
  obtain ⟨hinner, hbox⟩ := foldl_receive_stream hpending (by rw [hempty]; rfl)
    (fun m hm => hseq m (List.mem_append_left _ hm)) hdone
  intro r'
  have hr' : r' = ((pushed.map (okReply seq path ∘ encodePayload (M.codec method.outputType)) ++
      emissions (streamingError ⟨seq, path, metadata⟩ run.result)).foldl Router.receive r).receive
        (doneReply seq path) := List.foldl_append
  obtain ⟨hnone, hclose⟩ := receive_doneReply (by rw [hinner, hpending]) path
  rw [hr', hclose, hbox, hempty]
  refine ⟨?_, rfl, hnone⟩
  show List.map _ ([] ++ List.map _ _) = _
  rw [List.nil_append, List.map_append, List.map_map, List.map_append, List.map_map]
  congr 1
  · apply List.map_congr_left
    intro y hy
    show rpcReturn _ (Router.resultOf (okReply _ _ _)) = _
    rw [Router.resultOf_okReply, rpcReturn_okReply]
  · cases hresult : run.result with
    | ok u => rfl
    | error status =>
        show [rpcReturn _ (Router.resultOf (errorReply _ _ status))] = _
        rw [(rpcReturn_errorReply_iff _ _ status).mpr (hstatus status hresult)]

theorem generated_stream_read : ∃ path srv,
    (storageFile .correctable).register boolMessages (fun _ => invert) ⟨∅, []⟩ = some srv ∧
    ((((answers srv (0, 0) none (Node.buildWireMessage 1 path [8, 1] [])).foldl Router.receive
      (Router.new.registerStream 1 0)).boxes 0).items.map (rpcReturn boolCodec)) = [.ok true, .ok false] := by
  have hregister := (storageFile .correctable).register_eq boolMessages (fun _ => invert) ⟨∅, []⟩
  obtain ⟨path, -, hcall⟩ := (storageFile .correctable).generated_stream hregister (List.mem_singleton.mpr rfl)
    (List.mem_cons_self ..) (callType?_storage .correctable)
  refine ⟨path, _, hregister, ?_⟩
  exact (hcall 1 [] true (0, 0) none [true, false] (passes_storage _ _) (fun status hstatus => by cases hstatus) rfl
    (Router.new.registerStream 1 0) 0 rfl rfl).1

end GeneratedFile

end Quorums.Build
