import Ehttp.Server.Mapping

/-!
# `http_server.cpp`: which handler runs

* `getNamesStr_eq`: the `Allow` text is the names with `", "` between them;
* `find_table`: a path keeps the resource of its first registration;
* `routing_exact`: what becomes of a registration, and of a request, and
  `handleRequestCalls_snd`: that this is `handle_request`.
-/

namespace Ehttp

open Lib

namespace HttpServer

/-! ## Method sets -/

/-- The values of the class: its constructors and `operator|`. -/
inductive HttpMethod.Built : HttpMethod → Prop
  | default : Built ⟨[], []⟩
  | mk1 (code : Int) (name : Bytes) : Built (.mk1 code name)
  | or (lhs hm : HttpMethod) : Built lhs → Built hm → Built (lhs.or hm)

theorem HttpMethod.Built.sorted {hm : HttpMethod} (h : hm.Built) : StdSet.Sorted bytesLt hm.names := by
  induction h with
  | default => exact .nil
  | mk1 code name => exact List.pairwise_singleton _ name
  | or lhs hm _ _ ih _ => exact StdSet.sorted_insertAll bytesLt bytesLt_trans bytesLt_total _ _ ih

theorem namesLoop_eq (size i : Nat) (names : List Bytes) (h : i + names.length = size) :
    HttpMethod.namesLoop size i names = (bytes ", ").intercalate names := by
  induction names generalizing i with
  | nil => rfl
  | cons name names ih =>
    rw [List.length_cons] at h
    rw [HttpMethod.namesLoop, ih (i + 1) (by omega)]
    cases names with
    | nil =>
      rw [List.length_nil] at h
      rw [if_neg (by omega)]
      simp [List.intercalate]
    | cons next names =>
      rw [List.length_cons] at h
      rw [if_pos (by omega)]
      simp [List.intercalate]

/-- **The `Allow` text.** -/
theorem getNamesStr_eq (hm : HttpMethod) :
    hm.getNamesStr = (bytes ", ").intercalate hm.names :=
  namesLoop_eq _ 0 hm.names (by omega)

/-! ## Handlers -/

/-- A call of the handler; a null pointer cannot be called. -/
def Handler.call (handler : Handler) (req : Request) (res : Response) :
    Option (Request × Response) :=
  match handler with
  | .methodHandler handler => handler.map fun f => f req res
  | .jsonHandler handler => handler.map fun f => ((f req).1, { res with body := (f req).2 })
  | .httpJsonHandler handler => handler.map fun f => ((f req).1, { res with body := (f req).2 })

def Handler.nonNull : Handler → Bool
  | .methodHandler handler => handler.isSome
  | .jsonHandler handler => handler.isSome
  | .httpJsonHandler handler => handler.isSome

/-- `Resource.run` with the handlers it calls. -/
def Resource.runCalls (resource : Resource) (req : Request) (res : Response) :
    List Handler × Request × Response :=
  match resource.jsonPtr, resource.handlerPtr, resource.jh with
  | some jsonPtr, _, _ =>
    ([.jsonHandler (some jsonPtr)], (jsonPtr req).1, { res with body := (jsonPtr req).2 })
  | none, some handlerPtr, _ => ([.methodHandler (some handlerPtr)], handlerPtr req res)
  | none, none, some jh =>
    ([.httpJsonHandler (some jh)], (jh req).1, { res with body := (jh req).2 })
  | none, none, none => ([], req, res)

/-- `handle_request` with the handlers it calls. -/
def handleRequestCalls (rm : ResourceMap) (req : Request) (res : Response) :
    List Handler × Request × Response :=
  match dispatch rm req.line.getRequestUri req.getMethod with
  | .notFound => ([], req, { res with codeMsg := STATUS_NOT_FOUND, body := STATUS_NOT_FOUND.msg })
  | .notAllowed allowNames =>
    let res := { res with codeMsg := STATUS_METHOD_NOT_ALLOWED }
    ([], req, { res.setHead (bytes "Allow") allowNames with body := [] })
  | .handled resource => resource.runCalls req res

theorem handleRequestCalls_snd (rm : ResourceMap) (req : Request) (res : Response) :
    (handleRequestCalls rm req res).2 = handleRequest rm req res := by
  unfold handleRequestCalls handleRequest
  cases dispatch rm req.line.getRequestUri req.getMethod with
  | notFound => rfl
  | notAllowed allowNames => rfl
  | handled resource =>
    obtain ⟨method, handlerPtr, jsonPtr, jh⟩ := resource
    cases jsonPtr with
    | some f => rfl
    | none =>
      cases handlerPtr with
      | some f => rfl
      | none => cases jh <;> rfl

/-! ## Registrations -/

/-- A call of `add_mapping`, with the method set that was passed to it. -/
structure Registration where
  path : Bytes
  method : HttpMethod
  handler : Handler
  built : method.Built
  nonNull : handler.nonNull = true

/-- The resource a registration makes. -/
def Registration.resource (r : Registration) : Resource :=
  match r.handler with
  | .methodHandler handler => { method := r.method, handlerPtr := handler }
  | .jsonHandler handler => { method := r.method, jsonPtr := handler }
  | .httpJsonHandler handler => { method := r.method, jh := handler }

def Registration.add (rm : ResourceMap) (r : Registration) : Int × ResourceMap :=
  addMapping rm r.path r.method r.handler

/-- The table behind the calls, in order. -/
def table (rs : List Registration) : ResourceMap := rs.foldl (fun rm r => (r.add rm).2) []

theorem Registration.add_eq (rm : ResourceMap) (r : Registration) :
    r.add rm = addResource rm r.path r.resource := by
  unfold Registration.add Registration.resource addMapping
  cases r.handler <;> rfl

theorem table_snoc (rs : List Registration) (r : Registration) :
    table (rs ++ [r]) = (r.add (table rs)).2 := by
  rw [table, List.foldl_append]
  rfl

/-- **The table**: a path has the resource of its first registration. -/
theorem find_table (rs : List Registration) (path : Bytes) :
    (table rs).find path = (rs.find? (·.path = path)).map Registration.resource := by
  have hfold : ∀ (rs : List Registration) (rm : ResourceMap),
      (rs.foldl (fun rm r => (r.add rm).2) rm).find path =
        (rm.find path).or ((rs.find? (·.path = path)).map Registration.resource) := by
    intro rs
    induction rs with
    | nil => intro rm; simp
    | cons r rs ih =>
      intro rm
      rw [List.foldl_cons, ih, Registration.add_eq, addResource]
      by_cases hpath : r.path = path
      · subst hpath
        cases hold : rm.find r.path with
        | some old => simp [hold]
        | none => simp [StdMap.find_insert]
      · cases hold : rm.find r.path with
        | some old => simp [hpath]
        | none => simp [StdMap.find_insert, hpath]
  rw [table, hfold]
  rfl

/-- The handler of a resource that a registration made is called, and no other. -/
theorem runCalls_resource (r : Registration) (req : Request) (res : Response) :
    ∃ out, r.handler.call req res = some out ∧ r.resource.runCalls req res = ([r.handler], out) := by
  have hnull := r.nonNull
  unfold Registration.resource
  cases hh : r.handler with
  | methodHandler handler =>
    rw [hh] at hnull
    obtain ⟨f, rfl⟩ := Option.isSome_iff_exists.mp hnull
    exact ⟨_, rfl, rfl⟩
  | jsonHandler handler =>
    rw [hh] at hnull
    obtain ⟨f, rfl⟩ := Option.isSome_iff_exists.mp hnull
    exact ⟨_, rfl, rfl⟩
  | httpJsonHandler handler =>
    rw [hh] at hnull
    obtain ⟨f, rfl⟩ := Option.isSome_iff_exists.mp hnull
    exact ⟨_, rfl, rfl⟩

/-! ## Routing -/

/-- The answer to a request for a path that nothing was registered at. -/
structure NotFound (req : Request) (out : List Handler × Request × Response) : Prop where
  calls : out.1 = []
  req : out.2.1 = req
  status : out.2.2.codeMsg.statusCode = 404

/-- The answer to a request with a method that is not in the set: the header
lists the names of the set. -/
structure NotAllowed (hm : HttpMethod) (req : Request) (out : List Handler × Request × Response) :
    Prop where
  calls : out.1 = []
  req : out.2.1 = req
  status : out.2.2.codeMsg.statusCode = 405
  body : out.2.2.body = []
  allow : ∃ names : List Bytes, (∀ name, name ∈ names ↔ name ∈ hm.names) ∧
    StdSet.Sorted bytesLt names ∧
    out.2.2.headers.find (bytes "Allow") = some ((bytes ", ").intercalate names)

/-- **Routing is exact**, whatever was registered: a registration of a new path
returns 0, of a registered one -1 without a change of the table; and a request
is answered by the handler of the first registration of its path, by 405, or by
404.  The answer is that of `handle_request` by `handleRequestCalls_snd`. -/
theorem routing_exact (rs : List Registration) :
    (∀ r : Registration, r.add (table rs) =
      if r.path ∈ rs.map Registration.path then (-1, table rs) else (0, table (rs ++ [r]))) ∧
    ∀ req res,
      match rs.find? (·.path = req.line.getRequestUri) with
      | none => NotFound req (handleRequestCalls (table rs) req res)
      | some r =>
        if req.getMethod ∈ r.method.names then
          ∃ out, r.handler.call req res = some out ∧
            handleRequestCalls (table rs) req res = ([r.handler], out)
        else NotAllowed r.method req (handleRequestCalls (table rs) req res) := by
  constructor
  · intro r
    rw [table_snoc, Registration.add_eq, addResource, find_table, Option.isSome_map]
    by_cases hmem : r.path ∈ rs.map Registration.path
    · obtain ⟨q, hq, hpath⟩ := List.mem_map.mp hmem
      have hfound : (rs.find? (·.path = r.path)).isSome = true :=
        List.find?_isSome.mpr ⟨q, hq, by simpa using hpath⟩
      rw [if_pos hfound, if_pos hmem]
    · have hnone : ¬ (rs.find? (·.path = r.path)).isSome = true := by
        intro hfound
        obtain ⟨q, hq, hpath⟩ := List.find?_isSome.mp hfound
        exact hmem (List.mem_map.mpr ⟨q, hq, by simpa using hpath⟩)
      rw [if_neg hnone, if_neg hmem]
  · intro req res
    have hfind := find_table rs req.line.getRequestUri
    unfold handleRequestCalls dispatch
    cases hr : rs.find? (·.path = req.line.getRequestUri) with
    | none =>
      rw [hr] at hfind
      simp only [hfind, Option.map_none]
      exact ⟨rfl, rfl, rfl⟩
    | some r =>
      rw [hr] at hfind
      have hmethod : r.resource.method = r.method := by
        unfold Registration.resource
        cases r.handler <;> rfl
      simp only [hfind, Option.map_some, hmethod, StdSet.count]
      by_cases hmem : req.getMethod ∈ r.method.names
      · simp only [hmem, ↓reduceIte, Nat.one_ne_zero]
        exact runCalls_resource r req res
      · simp only [hmem, ↓reduceIte]
        refine ⟨rfl, rfl, rfl, rfl, r.method.names, fun _ => Iff.rfl, r.built.sorted, ?_⟩
        rw [getNamesStr_eq]
        simp only [Response.setHead, StdMap.find_insert, ↓reduceIte]

/-- `GET | POST` at `/a`. -/
def helloRegistration : Registration where
  path := bytes "/a"
  method := (Constants.init .get).or (Constants.init .post)
  handler := .methodHandler (some fun req res => (req, { res with body := bytes "hello" }))
  built := .or _ _ (.mk1 ..) (.mk1 ..)
  nonNull := rfl

/-- `OPTIONS` at `/a`, for a JSON handler. -/
def jsonRegistration : Registration where
  path := bytes "/a"
  method := Constants.init .options
  handler := .jsonHandler (some fun req => (req, bytes "1"))
  built := .mk1 ..
  nonNull := rfl

def requestTo (method url : Bytes) : Request := { line := { method, requestUrl := url } }

/-- `/a` registered twice: the first registration stays. -/
theorem routing_exact_twice :
    let rs := [helloRegistration, jsonRegistration]
    jsonRegistration.add (table rs) = (-1, table rs) ∧
      (∃ out, helloRegistration.handler.call (requestTo (bytes "POST") (bytes "/a?x=1")) {} = some out ∧
        handleRequestCalls (table rs) (requestTo (bytes "POST") (bytes "/a?x=1")) {} =
          ([helloRegistration.handler], out)) ∧
      NotAllowed helloRegistration.method (requestTo (bytes "OPTIONS") (bytes "/a"))
        (handleRequestCalls (table rs) (requestTo (bytes "OPTIONS") (bytes "/a")) {}) ∧
      NotFound (requestTo (bytes "GET") (bytes "/b"))
        (handleRequestCalls (table rs) (requestTo (bytes "GET") (bytes "/b")) {}) := by
  intro rs
  obtain ⟨hadd, hroute⟩ := routing_exact rs
  refine ⟨hadd jsonRegistration, ?_, ?_, ?_⟩
  · exact hroute (requestTo (bytes "POST") (bytes "/a?x=1")) {}
  · exact hroute (requestTo (bytes "OPTIONS") (bytes "/a")) {}
  · exact hroute (requestTo (bytes "GET") (bytes "/b")) {}

end HttpServer

end Ehttp
