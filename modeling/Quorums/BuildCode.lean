import Quorums.BuildNames

/-! What the code generator writes for a service (`codegen.rs`), line by line, and the items that the lines
make up: for each annotated method a handle struct with its trait impls, a client function, a function of the
server trait and a registration. -/

namespace Quorums.Build

/-- A method as it comes out of prost, with the Rust types of its messages. -/
structure RustMethod extends Method where
  name : String
  inputType : String
  outputType : String

structure RustService where
  name : String
  protoName : String
  package : String
  methods : List RustMethod

def RustService.toService (service : RustService) : Service :=
  ⟨service.name, service.protoName, service.package, service.methods.map RustMethod.toMethod⟩

/-! ### The lines -/

/-- The impl of a method trait for a handle. -/
def emitImpl (methodTrait handle req : String) (resp : Option String) (path : String) : List String :=
  [s!"impl ::quorums::{methodTrait} for {handle} \x7b", s!"    type Req = {req};"] ++
    (resp.map fun resp => s!"    type Resp = {resp};").toList ++
    [s!"    const PATH: &'static str = \"{path}\";", "\x7d"]

def emitRpcCallImpl (handle req resp path : String) : List String :=
  emitImpl "RpcCallMethod" handle req (some resp) path

def emitUnicastImpl (handle req path : String) : List String := emitImpl "UnicastMethod" handle req none path

def emitMulticastImpl (handle req path : String) : List String := emitImpl "MulticastMethod" handle req none path

def emitQcImpl (handle req resp path : String) : List String :=
  emitImpl "QuorumCallMethod" handle req (some resp) path

def emitOqcImpl (handle req resp path : String) : List String :=
  emitImpl "OrderedQuorumCallMethod" handle req (some resp) path

def emitCorrectableImpl (handle req resp path : String) : List String :=
  emitImpl "CorrectableMethod" handle req (some resp) path

def emitHandle (handleName : String) (callType : CallType) (reqTy respTy path : String) : List String :=
  [s!"/// Typed method handle for `{path}`.", "#[derive(Clone, Copy)]", s!"pub struct {handleName};"] ++
    match callType with
    | .rpcCall => emitRpcCallImpl handleName reqTy respTy path
    | .unicast => emitUnicastImpl handleName reqTy path
    | .multicast => emitMulticastImpl handleName reqTy path ++ emitUnicastImpl handleName reqTy path
    | .quorumCall =>
        emitQcImpl handleName reqTy respTy path ++ emitOqcImpl handleName reqTy respTy path ++
          emitRpcCallImpl handleName reqTy respTy path
    | .orderedQuorumCall =>
        emitOqcImpl handleName reqTy respTy path ++ emitQcImpl handleName reqTy respTy path ++
          emitRpcCallImpl handleName reqTy respTy path
    | .correctable => emitCorrectableImpl handleName reqTy respTy path

/-- A client function: it calls `callee` with the handle. -/
def clientFn (ctx result callee fnName reqTy handle : String) : List String :=
  [s!"    pub async fn {fnName}(ctx: &{ctx}, req: &{reqTy})",
    s!"        -> ::core::result::Result<{result}, ::quorums::Error>",
    "    \x7b",
    s!"        ::quorums::call_types::{callee}(ctx, req, super::{handle}).await",
    "    \x7d"]

def clientFnRpc (fnName reqTy respTy handle : String) : List String :=
  clientFn "::quorums::node::NodeContext" respTy "rpc_call" fnName reqTy handle

def clientFnUnicast (fnName reqTy handle : String) : List String :=
  clientFn "::quorums::node::NodeContext" "()" "unicast" fnName reqTy handle

def clientFnMulticast (fnName reqTy handle : String) : List String :=
  clientFn "::quorums::config::ConfigContext" "()" "multicast" fnName reqTy handle

def clientFnQc (fnName reqTy respTy handle : String) : List String :=
  clientFn "::quorums::config::ConfigContext" s!"::quorums::Responses<{respTy}>" "quorum_call" fnName reqTy handle

def clientFnOqc (fnName reqTy respTy handle : String) : List String :=
  clientFn "::quorums::config::ConfigContext" s!"::quorums::OrderedResponses<{respTy}>" "ordered_quorum_call" fnName
    reqTy handle

def clientFnCorrectable (fnName reqTy respTy handle : String) : List String :=
  clientFn "::quorums::config::ConfigContext" s!"::quorums::Correctable<{respTy}>" "correctable_call" fnName reqTy
    handle

/-- A function of the server trait. -/
def serverTraitFn (output fnName reqTy : String) : List String :=
  [s!"        fn {fnName}(&self, ctx: ::quorums::server::ServerCtx, req: {reqTy})",
    s!"            -> impl ::std::future::Future<Output = ::core::result::Result<{output}, ::tonic::Status>> + Send;"]

def serverTraitFnTwoway (fnName reqTy respTy : String) : List String :=
  serverTraitFn s!"::core::option::Option<{respTy}>" fnName reqTy

def serverTraitFnOneway (fnName reqTy : String) : List String :=
  serverTraitFn "::core::option::Option<()>" fnName reqTy

def serverTraitFnCorrectable (fnName reqTy : String) : List String := serverTraitFn "()" fnName reqTy

def registerHandler (path fnName reqBare : String) (streaming : Bool) : List String :=
  let registerFn := if streaming then "register_streaming_handler" else "register_handler"
  ["        \x7b",
    "            let s = ::std::sync::Arc::clone(&svc);",
    s!"            server.{registerFn}(\"{path}\", move |ctx, req: super::{reqBare}| \x7b",
    "                let s = ::std::sync::Arc::clone(&s);",
    s!"                async move \x7b s.{fnName}(ctx, req).await \x7d",
    "            \x7d);",
    "        \x7d"]

/-- The buffers of `generate`. What stands in `buf` comes first. -/
structure Buffers where
  buf : List String
  handles : List String
  clientFns : List String
  serverTraitFns : List String
  registerCalls : List String
  anyAnnotated : Bool

/-- One pass of its loop. -/
def Buffers.pass (gen : GorumsGenerator) (service : RustService) (b : Buffers) (method : RustMethod) : Buffers :=
  let fullPath := fullPath service.toService method.toMethod
  match gen.methods.lookup fullPath with
  | none => { b with buf := b.buf ++ [s!"// [quorums] no annotation for {fullPath} — skipped"] }
  | some callType =>
      let reqTy := "super::" ++ method.inputType
      let respTy := "super::" ++ method.outputType
      let handleName := handleName service.name method.protoName
      let handles := b.handles ++ emitHandle handleName callType method.inputType method.outputType fullPath
      let (clientFns, serverTraitFns, streaming) :=
        match callType with
        | .rpcCall =>
            (clientFnRpc method.name reqTy respTy handleName, serverTraitFnTwoway method.name reqTy respTy, false)
        | .unicast => (clientFnUnicast method.name reqTy handleName, serverTraitFnOneway method.name reqTy, false)
        | .multicast => (clientFnMulticast method.name reqTy handleName, serverTraitFnOneway method.name reqTy, false)
        | .quorumCall =>
            (clientFnQc method.name reqTy respTy handleName, serverTraitFnTwoway method.name reqTy respTy, false)
        | .orderedQuorumCall =>
            (clientFnOqc method.name reqTy respTy handleName, serverTraitFnTwoway method.name reqTy respTy, false)
        | .correctable =>
            (clientFnCorrectable method.name reqTy respTy handleName, serverTraitFnCorrectable method.name reqTy, true)
      { b with
        handles
        clientFns := b.clientFns ++ clientFns
        serverTraitFns := b.serverTraitFns ++ serverTraitFns
        registerCalls := b.registerCalls ++ registerHandler fullPath method.name method.inputType streaming
        anyAnnotated := true }

/-- The lines that `generate` appends to the file of the package. -/
def GorumsGenerator.generateLines (gen : GorumsGenerator) (service : RustService) : List String :=
  let svcName := service.name
  let moduleBase := toSnakeCase svcName
  let b := service.methods.foldl (Buffers.pass gen service) ⟨[], [], [], [], [], false⟩
  if b.anyAnnotated = false then b.buf
  else
    b.buf ++ b.handles ++ [""] ++
      [s!"pub mod {clientMod svcName} \x7b", s!"    //! Generated gorums client for `{svcName}`."] ++ b.clientFns ++
      ["\x7d", ""] ++
      [s!"pub mod {serverMod svcName} \x7b", s!"    //! Generated gorums server trait for `{svcName}`.",
        s!"    pub trait {svcName}Server: ::core::marker::Send + ::core::marker::Sync + 'static \x7b"] ++
      b.serverTraitFns ++
      ["    \x7d", "", s!"    pub fn register_{moduleBase}<S: {svcName}Server>(",
        "        server: &mut ::quorums::server::Server,", "        svc: ::std::sync::Arc<S>,", "    ) \x7b"] ++
      b.registerCalls ++ ["    \x7d", "\x7d"]

/-! ### The items -/

/-- The traits of `method.rs`. -/
inductive MethodTrait where
  | rpcCallMethod
  | unicastMethod
  | multicastMethod
  | quorumCallMethod
  | orderedQuorumCallMethod
  | correctableMethod
  deriving DecidableEq, Repr

def MethodTrait.name : MethodTrait → String
  | .rpcCallMethod => "RpcCallMethod"
  | .unicastMethod => "UnicastMethod"
  | .multicastMethod => "MulticastMethod"
  | .quorumCallMethod => "QuorumCallMethod"
  | .orderedQuorumCallMethod => "OrderedQuorumCallMethod"
  | .correctableMethod => "CorrectableMethod"

/-- The trait has a response type. -/
def MethodTrait.twoWay : MethodTrait → Bool
  | .unicastMethod | .multicastMethod => false
  | _ => true

/-- The trait that the function of a call type (`call_types.rs`) asks of its handle. -/
def CallType.bound : CallType → MethodTrait
  | .rpcCall => .rpcCallMethod
  | .unicast => .unicastMethod
  | .multicast => .multicastMethod
  | .quorumCall => .quorumCallMethod
  | .orderedQuorumCall => .orderedQuorumCallMethod
  | .correctable => .correctableMethod

/-- The traits that a handle gets, in the order of the impls. -/
def CallType.traits : CallType → List MethodTrait
  | .rpcCall => [.rpcCallMethod]
  | .unicast => [.unicastMethod]
  | .multicast => [.multicastMethod, .unicastMethod]
  | .quorumCall => [.quorumCallMethod, .orderedQuorumCallMethod, .rpcCallMethod]
  | .orderedQuorumCall => [.orderedQuorumCallMethod, .quorumCallMethod, .rpcCallMethod]
  | .correctable => [.correctableMethod]

/-- What a function of the server trait returns if all goes well. -/
inductive Output where
  | twoWay (resp : String)
  | oneWay
  | correctable
  deriving DecidableEq, Repr

structure TraitImpl where
  methodTrait : MethodTrait
  req : String
  resp : String
  path : String
  deriving DecidableEq, Repr

structure Handle where
  name : String
  path : String
  impls : List TraitImpl
  deriving DecidableEq, Repr

/-- A client function. Its types and its handle are written as its module has to write them. -/
structure ClientFn where
  name : String
  callee : CallType
  req : String
  resp : String
  handle : String
  deriving DecidableEq, Repr

structure TraitFn where
  name : String
  req : String
  output : Output
  deriving DecidableEq, Repr

structure Registration where
  path : String
  fnName : String
  req : String
  streaming : Bool
  deriving DecidableEq, Repr

/-- The items of an annotated method. -/
structure MethodItems where
  handle : Handle
  clientFn : ClientFn
  traitFn : TraitFn
  registration : Registration
  deriving DecidableEq, Repr

def CallType.output (resp : String) : CallType → Output
  | .unicast | .multicast => .oneWay
  | .correctable => .correctable
  | _ => .twoWay resp

/-- The path of a name of the file, as the modules in it write it. -/
def superPath (name : String) : String := "super::" ++ name

def methodItems (service : RustService) (method : RustMethod) (callType : CallType) : MethodItems :=
  let path := fullPath service.toService method.toMethod
  let handle := handleName service.name method.protoName
  { handle := ⟨handle, path, callType.traits.map fun t => ⟨t, method.inputType, method.outputType, path⟩⟩
    clientFn := ⟨method.name, callType, superPath method.inputType, superPath method.outputType, superPath handle⟩
    traitFn := ⟨method.name, superPath method.inputType, callType.output (superPath method.outputType)⟩
    registration := ⟨path, method.name, superPath method.inputType, decide (callType = .correctable)⟩ }

/-- The call type of a method that is annotated. -/
def GorumsGenerator.callType? (gen : GorumsGenerator) (service : RustService) (method : RustMethod) :
    Option CallType :=
  gen.methods.lookup (fullPath service.toService method.toMethod)

/-- The items of a service. -/
def GorumsGenerator.items (gen : GorumsGenerator) (service : RustService) : List MethodItems :=
  service.methods.filterMap fun method => (gen.callType? service method).map (methodItems service method)

def TraitImpl.render (handle : String) (i : TraitImpl) : List String :=
  emitImpl i.methodTrait.name handle i.req (if i.methodTrait.twoWay then some i.resp else none) i.path

def Handle.render (h : Handle) : List String :=
  [s!"/// Typed method handle for `{h.path}`.", "#[derive(Clone, Copy)]", s!"pub struct {h.name};"] ++
    h.impls.flatMap (TraitImpl.render h.name)

/-- What a client function returns, and the function that it calls. -/
def CallType.shape (resp : String) : CallType → String × String × String
  | .rpcCall => ("::quorums::node::NodeContext", resp, "rpc_call")
  | .unicast => ("::quorums::node::NodeContext", "()", "unicast")
  | .multicast => ("::quorums::config::ConfigContext", "()", "multicast")
  | .quorumCall => ("::quorums::config::ConfigContext", s!"::quorums::Responses<{resp}>", "quorum_call")
  | .orderedQuorumCall =>
      ("::quorums::config::ConfigContext", s!"::quorums::OrderedResponses<{resp}>", "ordered_quorum_call")
  | .correctable => ("::quorums::config::ConfigContext", s!"::quorums::Correctable<{resp}>", "correctable_call")

def ClientFn.render (f : ClientFn) : List String :=
  let (ctx, result, callee) := f.callee.shape f.resp
  [s!"    pub async fn {f.name}(ctx: &{ctx}, req: &{f.req})",
    s!"        -> ::core::result::Result<{result}, ::quorums::Error>",
    "    \x7b",
    s!"        ::quorums::call_types::{callee}(ctx, req, {f.handle}).await",
    "    \x7d"]

def Output.render : Output → String
  | .twoWay resp => s!"::core::option::Option<{resp}>"
  | .oneWay => "::core::option::Option<()>"
  | .correctable => "()"

def TraitFn.render (f : TraitFn) : List String := serverTraitFn f.output.render f.name f.req

def Registration.render (r : Registration) : List String :=
  let registerFn := if r.streaming then "register_streaming_handler" else "register_handler"
  ["        \x7b",
    "            let s = ::std::sync::Arc::clone(&svc);",
    s!"            server.{registerFn}(\"{r.path}\", move |ctx, req: {r.req}| \x7b",
    "                let s = ::std::sync::Arc::clone(&s);",
    s!"                async move \x7b s.{r.fnName}(ctx, req).await \x7d",
    "            \x7d);",
    "        \x7d"]

/-- The comments for the methods that are not annotated. -/
def GorumsGenerator.skipped (gen : GorumsGenerator) (service : RustService) : List String :=
  (service.methods.filter fun method => (gen.callType? service method).isNone).map fun method =>
    s!"// [quorums] no annotation for {fullPath service.toService method.toMethod} — skipped"

/-- The text of a service with annotated methods. -/
def renderItems (svcName : String) (items : List MethodItems) : List String :=
  items.flatMap (fun i => i.handle.render) ++ [""] ++
    [s!"pub mod {clientMod svcName} \x7b", s!"    //! Generated gorums client for `{svcName}`."] ++
    items.flatMap (fun i => i.clientFn.render) ++ ["\x7d", ""] ++
    [s!"pub mod {serverMod svcName} \x7b", s!"    //! Generated gorums server trait for `{svcName}`.",
      s!"    pub trait {svcName}Server: ::core::marker::Send + ::core::marker::Sync + 'static \x7b"] ++
    items.flatMap (fun i => i.traitFn.render) ++
    ["    \x7d", "", s!"    pub fn register_{toSnakeCase svcName}<S: {svcName}Server>(",
      "        server: &mut ::quorums::server::Server,", "        svc: ::std::sync::Arc<S>,", "    ) \x7b"] ++
    items.flatMap (fun i => i.registration.render) ++ ["    \x7d", "\x7d"]

section Render

variable {gen : GorumsGenerator} {service : RustService} {method : RustMethod} {callType : CallType}

theorem clientFn_eq (ctx result callee fnName reqTy handle : String) :
    clientFn ctx result callee fnName reqTy handle =
      [s!"    pub async fn {fnName}(ctx: &{ctx}, req: &{reqTy})",
        s!"        -> ::core::result::Result<{result}, ::quorums::Error>",
        "    \x7b",
        s!"        ::quorums::call_types::{callee}(ctx, req, {superPath handle}).await",
        "    \x7d"] := by
  have hsuper : ("(ctx, req, super::" : String) = "(ctx, req, " ++ "super::" := by decide
  simp only [clientFn, superPath, toString, hsuper, String.append_assoc]

theorem registerHandler_eq (path fnName reqBare : String) (streaming : Bool) :
    registerHandler path fnName reqBare streaming =
      (Registration.mk path fnName (superPath reqBare) streaming).render := by
  have hsuper : ("\", move |ctx, req: super::" : String) = "\", move |ctx, req: " ++ "super::" := by decide
  simp only [registerHandler, Registration.render, superPath, toString, hsuper, String.append_assoc]

theorem emitHandle_eq (handleName reqTy respTy path : String) (callType : CallType) :
    emitHandle handleName callType reqTy respTy path =
      (Handle.mk handleName path (callType.traits.map fun t => ⟨t, reqTy, respTy, path⟩)).render := by
  cases callType <;> rfl

/-- The text of a method that is annotated is that of its items. -/
theorem pass_of_annotated (h : gen.callType? service method = some callType) (b : Buffers) :
    b.pass gen service method =
      { b with
        handles := b.handles ++ (methodItems service method callType).handle.render
        clientFns := b.clientFns ++ (methodItems service method callType).clientFn.render
        serverTraitFns := b.serverTraitFns ++ (methodItems service method callType).traitFn.render
        registerCalls := b.registerCalls ++ (methodItems service method callType).registration.render
        anyAnnotated := true } := by
  rw [GorumsGenerator.callType?] at h
  unfold Buffers.pass
  simp only [h, emitHandle_eq, registerHandler_eq]
  cases callType <;>
    simp only [clientFnRpc, clientFnUnicast, clientFnMulticast, clientFnQc, clientFnOqc, clientFnCorrectable,
      clientFn_eq] <;>
    rfl

theorem pass_of_skipped (h : gen.callType? service method = none) (b : Buffers) :
    b.pass gen service method =
      { b with buf := b.buf ++
          [s!"// [quorums] no annotation for {fullPath service.toService method.toMethod} — skipped"] } := by
  rw [GorumsGenerator.callType?] at h
  unfold Buffers.pass
  simp only [h]

/-- The loop over some of the methods. -/
theorem foldl_pass (methods : List RustMethod) (b : Buffers) :
    let items := methods.filterMap fun method => (gen.callType? service method).map (methodItems service method)
    methods.foldl (Buffers.pass gen service) b =
      { buf := b.buf ++ (methods.filter fun method => (gen.callType? service method).isNone).map fun method =>
          s!"// [quorums] no annotation for {fullPath service.toService method.toMethod} — skipped"
        handles := b.handles ++ items.flatMap (fun i => i.handle.render)
        clientFns := b.clientFns ++ items.flatMap (fun i => i.clientFn.render)
        serverTraitFns := b.serverTraitFns ++ items.flatMap (fun i => i.traitFn.render)
        registerCalls := b.registerCalls ++ items.flatMap (fun i => i.registration.render)
        anyAnnotated := b.anyAnnotated || !items.isEmpty } := by
  induction methods generalizing b with
  | nil => simp
  | cons method methods ih =>
      dsimp only at ih ⊢
      rw [List.foldl_cons, ih]
      cases hcall : gen.callType? service method with
      | none =>
          rw [pass_of_skipped hcall]
          simp [hcall]
      | some callType =>
          rw [pass_of_annotated hcall]
          simp [hcall]

/-- What is written for a service is the text of its items, behind the comments. -/
theorem generateLines_eq (gen : GorumsGenerator) (service : RustService) :
    gen.generateLines service = gen.skipped service ++
      if gen.items service = [] then [] else renderItems service.name (gen.items service) := by
  unfold GorumsGenerator.generateLines
  simp only [foldl_pass, List.nil_append, Bool.false_or]
  show (if (!(gen.items service).isEmpty) = false then gen.skipped service else _) = _
  by_cases hitems : gen.items service = []
  · simp [hitems]
  · rw [if_neg (by simp [hitems]), if_neg hitems]
    simp only [renderItems, GorumsGenerator.items, GorumsGenerator.skipped, List.append_assoc]

end Render

end Quorums.Build
