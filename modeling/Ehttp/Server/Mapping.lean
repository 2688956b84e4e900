import Mathlib.Logic.Function.Basic
import Ehttp.Response

/-!
# `http_server.cpp`: routes and their methods

`HttpMethod::operator|` writes to its left operand and returns a reference to
it, and the operands are the static constants of the translation unit.
`add_mapping` copies the method it is given, `handle_request` reads the copy.

* `eval_const`: an expression of one constant changes nothing;
* `eval_gains`: any other adds a name to the constant on its left;
* `methods_apart_iff`: when the routes keep their methods apart.
-/

namespace Ehttp

open Lib

namespace HttpServer

/-! ## `HttpMethod` -/

structure HttpMethod where
  codes : StdSet Int
  names : StdSet Bytes
  deriving DecidableEq, Repr

def HttpMethod.mk1 (code : Int) (name : Bytes) : HttpMethod := ⟨[code], [name]⟩

/-- What `operator|` leaves in its left operand. -/
def HttpMethod.or (lhs hm : HttpMethod) : HttpMethod :=
  { codes := StdSet.insertAll (fun a b => a < b) lhs.codes hm.codes
    names := StdSet.insertAll bytesLt lhs.names hm.names }

/-- The loop of `get_names_str` from element `i` on. -/
def HttpMethod.namesLoop (size : Nat) : Nat → List Bytes → Bytes
  | _, [] => []
  | i, name :: names =>
    name ++ (if i ≠ size - 1 then bytes ", " else []) ++ namesLoop size (i + 1) names

def HttpMethod.getNamesStr (hm : HttpMethod) : Bytes := namesLoop hm.names.length 0 hm.names

/-- `GET_METHOD`, `POST_METHOD`, `OPTIONS_METHOD`. -/
inductive MethodConst
  | get | post | options
  deriving DecidableEq, Repr

def MethodConst.code : MethodConst → Int
  | .get => 1
  | .post => 2
  | .options => 3

def MethodConst.name : MethodConst → Bytes
  | .get => bytes "GET"
  | .post => bytes "POST"
  | .options => bytes "OPTIONS"

/-- The static objects of a translation unit. -/
abbrev Constants := MethodConst → HttpMethod

def Constants.init : Constants := fun c => .mk1 c.code c.name

/-- `a | b`: the order in which the left operand, the right operand and the copy
of it are evaluated is open. -/
inductive EvalOrder
  | leftFirst | rightFirst | copyLast
  deriving DecidableEq, Repr

inductive MethodExpr
  | const (c : MethodConst)
  | or (order : EvalOrder) (l r : MethodExpr)
  deriving DecidableEq, Repr

def Constants.orAssign (k : Constants) (c : MethodConst) (hm : HttpMethod) : Constants :=
  Function.update k c ((k c).or hm)

/-- The constant an expression refers to, and the constants after it. -/
def MethodExpr.eval : MethodExpr → Constants → MethodConst × Constants
  | .const c, k => (c, k)
  | .or .leftFirst l r, k =>
    let (a, k) := l.eval k
    let (b, k) := r.eval k
    (a, k.orAssign a (k b))
  | .or .rightFirst l r, k =>
    let (b, k) := r.eval k
    let hm := k b
    let (a, k) := l.eval k
    (a, k.orAssign a hm)
  | .or .copyLast l r, k =>
    let (b, k) := r.eval k
    let (a, k) := l.eval k
    (a, k.orAssign a (k b))

/-! ## Resources -/

/-- The handlers; those for JSON return the text that `set_body` writes. -/
structure Resource where
  method : HttpMethod
  handlerPtr : Option (Request → Response → Request × Response) := none
  jsonPtr : Option (Request → Request × Bytes) := none
  jh : Option (Request → Request × Bytes) := none

abbrev ResourceMap := StdMap Bytes Resource

def addResource (rm : ResourceMap) (path : Bytes) (res : Resource) : Int × ResourceMap :=
  if (rm.find path).isSome then (-1, rm) else (0, rm.insert bytesLt path res)

/-- The handler argument of `add_mapping`, which chooses the overload. -/
inductive Handler
  | methodHandler (handler : Option (Request → Response → Request × Response))
  | jsonHandler (handler : Option (Request → Request × Bytes))
  | httpJsonHandler (handler : Option (Request → Request × Bytes))

def addMapping (rm : ResourceMap) (path : Bytes) (method : HttpMethod) :
    Handler → Int × ResourceMap
  | .methodHandler handler => addResource rm path { method, handlerPtr := handler }
  | .jsonHandler handler => addResource rm path { method, jsonPtr := handler }
  | .httpJsonHandler handler => addResource rm path { method, jh := handler }

/-! ## `handle_request` -/

def STATUS_NOT_FOUND : CodeMsg := ⟨404, bytes "Not Found"⟩
def STATUS_METHOD_NOT_ALLOWED : CodeMsg := ⟨405, bytes "Method Not Allowed"⟩

/-- What `handle_request` does with a URI and a method. -/
inductive Dispatch
  | notFound
  | notAllowed (allowNames : Bytes)
  | handled (resource : Resource)

def dispatch (rm : ResourceMap) (uri method : Bytes) : Dispatch :=
  match rm.find uri with
  | none => .notFound
  | some resource =>
    if resource.method.names.count method = 0 then .notAllowed resource.method.getNamesStr
    else .handled resource

def Resource.run (resource : Resource) (req : Request) (res : Response) : Request × Response :=
  match resource.jsonPtr, resource.handlerPtr, resource.jh with
  | some jsonPtr, _, _ => ((jsonPtr req).1, { res with body := (jsonPtr req).2 })
  | none, some handlerPtr, _ => handlerPtr req res
  | none, none, some jh => ((jh req).1, { res with body := (jh req).2 })
  | none, none, none => (req, res)

def handleRequest (rm : ResourceMap) (req : Request) (res : Response) : Request × Response :=
  match dispatch rm req.line.getRequestUri req.getMethod with
  | .notFound => (req, { res with codeMsg := STATUS_NOT_FOUND, body := STATUS_NOT_FOUND.msg })
  | .notAllowed allowNames =>
    let res := { res with codeMsg := STATUS_METHOD_NOT_ALLOWED }
    (req, { res.setHead (bytes "Allow") allowNames with body := [] })
  | .handled resource => resource.run req res

/-- A request for `uri` with this method gets to the handler. -/
def accepts (rm : ResourceMap) (uri method : Bytes) : Bool :=
  match dispatch rm uri method with
  | .handled _ => true
  | _ => false

/-- An accepted request is the handler's. -/
theorem handleRequest_accepted (rm : ResourceMap) (req : Request) (res : Response)
    (h : accepts rm req.line.getRequestUri req.getMethod = true) :
    ∃ resource, rm.find req.line.getRequestUri = some resource ∧
      handleRequest rm req res = resource.run req res := by
  cases hfind : rm.find req.line.getRequestUri with
  | none => simp [accepts, dispatch, hfind] at h
  | some resource =>
    by_cases hcount : resource.method.names.count req.getMethod = 0
    · simp [accepts, dispatch, hfind, hcount] at h
    · exact ⟨resource, rfl, by simp [handleRequest, dispatch, hfind, hcount]⟩

/-- Any other is answered without a handler. -/
theorem handleRequest_refused (rm : ResourceMap) (req : Request) (res : Response)
    (h : accepts rm req.line.getRequestUri req.getMethod = false) :
    (handleRequest rm req res).1 = req ∧
      ((handleRequest rm req res).2.codeMsg = STATUS_NOT_FOUND ∨
        (handleRequest rm req res).2.codeMsg = STATUS_METHOD_NOT_ALLOWED) := by
  cases hfind : rm.find req.line.getRequestUri with
  | none =>
    refine ⟨by simp [handleRequest, dispatch, hfind], Or.inl ?_⟩
    simp [handleRequest, dispatch, hfind]
  | some resource =>
    by_cases hcount : resource.method.names.count req.getMethod = 0
    · refine ⟨by simp [handleRequest, dispatch, hfind, hcount], Or.inr ?_⟩
      simp [handleRequest, dispatch, hfind, hcount, Response.setHead]
    · simp [accepts, dispatch, hfind, hcount] at h

/-! ## Sequences of registrations -/

structure TranslationUnit where
  constants : Constants := .init
  resourceMap : ResourceMap := []

/-- A statement of the translation unit; without a method the default argument
`GET_METHOD` is evaluated. -/
inductive Statement
  | eval (e : MethodExpr)
  | addMapping (path : Bytes) (handler : Handler) (method : Option MethodExpr)

/-- The expression a statement evaluates. -/
def Statement.expr : Statement → MethodExpr
  | .eval e => e
  | .addMapping _ _ method => method.getD (.const .get)

def exec (u : TranslationUnit) (stmt : Statement) : TranslationUnit :=
  let (c, constants) := stmt.expr.eval u.constants
  match stmt with
  | .eval _ => { u with constants }
  | .addMapping path handler _ =>
    { constants, resourceMap := (addMapping u.resourceMap path (constants c) handler).2 }

def run (stmts : List Statement) : TranslationUnit := stmts.foldl exec {}

/-! ## What an expression names -/

def MethodExpr.consts : MethodExpr → List MethodConst
  | .const c => [c]
  | .or _ l r => l.consts ++ r.consts

/-- The constant at the far left: the one that is written to. -/
def MethodExpr.leftmost : MethodExpr → MethodConst
  | .const c => c
  | .or _ l _ => l.leftmost

/-- The union of the constants written in the expression. -/
def MethodExpr.names (e : MethodExpr) : List Bytes := e.consts.map MethodConst.name

theorem leftmost_mem (e : MethodExpr) : e.leftmost ∈ e.consts := by
  induction e with
  | const c => exact List.mem_cons_self
  | or order l r ihl ihr => exact List.mem_append_left _ ihl

theorem name_injective (c d : MethodConst) (h : c.name = d.name) : c = d := by
  revert h
  cases c <;> cases d <;> decide

theorem names_init (c : MethodConst) (m : Bytes) : m ∈ (Constants.init c).names ↔ m = c.name :=
  List.mem_singleton

/-! ## Evaluation -/

theorem eval_fst (e : MethodExpr) (k : Constants) : (e.eval k).1 = e.leftmost := by
  induction e generalizing k with
  | const c => rfl
  | or order l r ihl ihr =>
    cases order with
    | leftFirst => exact ihl k
    | rightFirst => exact ihl _
    | copyLast => exact ihl _

theorem or_self (c : MethodConst) : (Constants.init c).or (Constants.init c) = Constants.init c := by
  cases c <;> decide

/-- An expression of one constant changes nothing. -/
theorem eval_const (e : MethodExpr) (c : MethodConst) (h : ∀ d ∈ e.consts, d = c) :
    e.eval .init = (c, .init) := by
  have hassign : Constants.init.orAssign c (Constants.init c) = .init := by
    rw [Constants.orAssign, or_self]
    exact Function.update_eq_self c _
  induction e with
  | const d => rw [h d List.mem_cons_self]; rfl
  | or order l r ihl ihr =>
    have hl := ihl fun d hd => h d (List.mem_append_left _ hd)
    have hr := ihr fun d hd => h d (List.mem_append_right _ hd)
    cases order with
    | leftFirst => simp only [MethodExpr.eval, hl, hr, hassign]
    | rightFirst => simp only [MethodExpr.eval, hl, hr, hassign]
    | copyLast => simp only [MethodExpr.eval, hl, hr, hassign]

/-- The constants have only grown. -/
def Grown (k k' : Constants) : Prop := ∀ c m, m ∈ (k c).names → m ∈ (k' c).names

theorem Grown.trans {k k' k'' : Constants} (h : Grown k k') (h' : Grown k' k'') : Grown k k'' :=
  fun c m hm => h' c m (h c m hm)

theorem names_orAssign (k : Constants) (a c : MethodConst) (hm : HttpMethod) (m : Bytes) :
    m ∈ (k.orAssign a hm c).names ↔ m ∈ (k c).names ∨ (c = a ∧ m ∈ hm.names) := by
  rw [Constants.orAssign, Function.update_apply]
  split
  · rename_i h
    rw [h, HttpMethod.or, StdSet.mem_insertAll]
    simp
  · rename_i h
    simp [h]

theorem grown_orAssign (k : Constants) (a : MethodConst) (hm : HttpMethod) :
    Grown k (k.orAssign a hm) :=
  fun c m h => (names_orAssign k a c hm m).mpr (Or.inl h)

theorem eval_grown (e : MethodExpr) (k : Constants) : Grown k (e.eval k).2 := by
  induction e generalizing k with
  | const c => exact fun _ _ h => h
  | or order l r ihl ihr =>
    cases order with
    | leftFirst => exact ((ihl k).trans (ihr _)).trans (grown_orAssign _ _ _)
    | rightFirst => exact ((ihr k).trans (ihl _)).trans (grown_orAssign _ _ _)
    | copyLast => exact ((ihr k).trans (ihl _)).trans (grown_orAssign _ _ _)

/-- The constant on the left gains every name of the expression. -/
theorem eval_gains (e : MethodExpr) (k : Constants) (hk : Grown .init k) (c : MethodConst)
    (hc : c ∈ e.consts) : c.name ∈ ((e.eval k).2 e.leftmost).names := by
  induction e generalizing k c with
  | const d =>
    rw [List.mem_singleton.mp hc]
    exact hk d d.name ((names_init d _).mpr rfl)
  | or order l r ihl ihr =>
    have hgain : ∀ (k : Constants) (hm : HttpMethod),
        (∀ c ∈ l.consts, c.name ∈ (k l.leftmost).names) → (∀ c ∈ r.consts, c.name ∈ hm.names) →
        c.name ∈ (k.orAssign l.leftmost hm l.leftmost).names := by
      intro k hm hl hr
      rw [names_orAssign]
      rcases List.mem_append.mp hc with hc | hc
      · exact Or.inl (hl c hc)
      · exact Or.inr ⟨rfl, hr c hc⟩
    cases order with
    | leftFirst =>
      show c.name ∈ ((r.eval (l.eval k).2).2.orAssign (l.eval k).1 _ l.leftmost).names
      rw [eval_fst, eval_fst]
      apply hgain
      · exact fun c hc => eval_grown r _ _ _ (ihl k hk c hc)
      · exact ihr _ (hk.trans (eval_grown l k))
    | rightFirst =>
      show c.name ∈ ((l.eval (r.eval k).2).2.orAssign (l.eval (r.eval k).2).1 _ l.leftmost).names
      rw [eval_fst, eval_fst]
      apply hgain
      · exact ihl _ (hk.trans (eval_grown r k))
      · exact ihr k hk
    | copyLast =>
      show c.name ∈ ((l.eval (r.eval k).2).2.orAssign (l.eval (r.eval k).2).1 _ l.leftmost).names
      rw [eval_fst, eval_fst]
      apply hgain
      · exact ihl _ (hk.trans (eval_grown r k))
      · exact fun c hc => eval_grown l _ _ _ (ihr k hk c hc)

/-! ## Registrations -/

/-- The expression a path was registered with; a repeated path is refused. -/
def registered : List Statement → Bytes → Option MethodExpr
  | [], _ => none
  | .eval _ :: stmts, path => registered stmts path
  | .addMapping p _ method :: stmts, path =>
    if p = path then some (method.getD (.const .get)) else registered stmts path

/-- Every path accepts the methods of its own expression, and the constants are
as they were. -/
def Apart (stmts : List Statement) : Prop :=
  (run stmts).constants = .init ∧
    ∀ path e, registered stmts path = some e →
      ∀ m, accepts (run stmts).resourceMap path m = true ↔ m ∈ e.names

/-- Only one constant is written in the expression, once or more. -/
def MethodExpr.OneConstant (e : MethodExpr) : Prop := ∀ c ∈ e.consts, ∀ d ∈ e.consts, c = d

theorem OneConstant.eval {e : MethodExpr} (h : e.OneConstant) :
    e.eval .init = (e.leftmost, .init) :=
  eval_const e e.leftmost fun d hd => h d hd _ (leftmost_mem e)

theorem OneConstant.names {e : MethodExpr} (h : e.OneConstant) (m : Bytes) :
    m ∈ e.names ↔ m = e.leftmost.name := by
  constructor
  · intro hm
    obtain ⟨c, hc, rfl⟩ := List.mem_map.mp hm
    rw [h c hc _ (leftmost_mem e)]
  · rintro rfl
    exact List.mem_map_of_mem (leftmost_mem e)

/-- The method of the resource at a path. -/
def methodAt (rm : ResourceMap) (path : Bytes) : Option HttpMethod :=
  (rm.find path).map Resource.method

theorem accepts_iff (rm : ResourceMap) (path m : Bytes) :
    accepts rm path m = true ↔ ∃ hm, methodAt rm path = some hm ∧ m ∈ hm.names := by
  cases h : rm.find path with
  | none => simp [accepts, dispatch, methodAt, h]
  | some resource =>
    by_cases hm : m ∈ resource.method.names <;>
      simp [accepts, dispatch, methodAt, StdSet.count, h, hm]

theorem methodAt_addMapping (rm : ResourceMap) (p path : Bytes) (hm : HttpMethod)
    (handler : Handler) :
    methodAt (addMapping rm p hm handler).2 path =
      if p = path ∧ methodAt rm path = none then some hm else methodAt rm path := by
  have hres : ∀ res : Resource, methodAt (addResource rm p res).2 path =
      if p = path ∧ methodAt rm path = none then some res.method else methodAt rm path := by
    intro res
    cases hp : rm.find p with
    | some old =>
      have hkeep : (addResource rm p res).2 = rm := by rw [addResource, hp]; rfl
      rw [hkeep, if_neg]
      rintro ⟨rfl, hnone⟩
      rw [methodAt, hp] at hnone
      cases hnone
    | none =>
      have hadd : (addResource rm p res).2 = rm.insert bytesLt p res := by rw [addResource, hp]; rfl
      rw [hadd, methodAt, StdMap.find_insert]
      by_cases heq : p = path
      · subst heq
        rw [if_pos rfl, if_pos ⟨rfl, by rw [methodAt, hp]; rfl⟩]
        rfl
      · rw [if_neg heq, if_neg (fun h => heq h.1)]
        rfl
  cases handler with
  | methodHandler handler => exact hres _
  | jsonHandler handler => exact hres _
  | httpJsonHandler handler => exact hres _

/-- Statements of one constant each: the constants stay, and a path that was not
registered before has the constant of its own expression. -/
theorem foldl_exec (stmts : List Statement) (u : TranslationUnit) (hu : u.constants = .init)
    (h : ∀ stmt ∈ stmts, stmt.expr.OneConstant) :
    (stmts.foldl exec u).constants = .init ∧
    ∀ path, methodAt (stmts.foldl exec u).resourceMap path =
      (methodAt u.resourceMap path).or
        ((registered stmts path).map fun e => Constants.init e.leftmost) := by
  induction stmts generalizing u with
  | nil =>
    refine ⟨hu, fun path => ?_⟩
    exact (Option.or_none).symm
  | cons stmt stmts ih =>
    have heval := OneConstant.eval (h stmt List.mem_cons_self)
    have hrest := fun stmt hmem => h stmt (List.mem_cons_of_mem _ hmem)
    cases stmt with
    | eval e =>
      have hexec : exec u (.eval e) = u := by
        rw [exec, hu, heval, ← hu]
      rw [List.foldl_cons, hexec]
      exact ih u hu hrest
    | addMapping p handler method =>
      let u' : TranslationUnit := ⟨.init,
        (addMapping u.resourceMap p (Constants.init (method.getD (.const .get)).leftmost) handler).2⟩
      have hexec : exec u (.addMapping p handler method) = u' := by
        rw [exec, hu, heval]
        rfl
      obtain ⟨hconst, hmethods⟩ := ih u' rfl hrest
      rw [List.foldl_cons, hexec]
      refine ⟨hconst, fun path => ?_⟩
      rw [hmethods, methodAt_addMapping, registered]
      cases hold : methodAt u.resourceMap path with
      | some hm => simp
      | none =>
        by_cases heq : p = path
        · rw [if_pos ⟨heq, rfl⟩, if_pos heq]
          rfl
        · rw [if_neg (fun h => heq h.1), if_neg heq]

theorem registered_mem (stmts : List Statement) (path : Bytes) (e : MethodExpr)
    (h : registered stmts path = some e) : ∃ stmt ∈ stmts, stmt.expr = e := by
  induction stmts with
  | nil => cases h
  | cons stmt stmts ih =>
    have hrest : registered stmts path = some e → ∃ s ∈ stmt :: stmts, s.expr = e := by
      intro h
      obtain ⟨s, hs, he⟩ := ih h
      exact ⟨s, List.mem_cons_of_mem _ hs, he⟩
    cases stmt with
    | eval e' => exact hrest h
    | addMapping p handler method =>
      rw [registered] at h
      split at h
      · exact ⟨_, List.mem_cons_self, Option.some.inj h⟩
      · exact hrest h

theorem grown_foldl (stmts : List Statement) (u : TranslationUnit) :
    Grown u.constants (stmts.foldl exec u).constants := by
  induction stmts generalizing u with
  | nil => exact fun _ _ h => h
  | cons stmt stmts ih =>
    have hstep : Grown u.constants (exec u stmt).constants := by
      cases stmt with
      | eval e => exact eval_grown e u.constants
      | addMapping p handler method => exact eval_grown _ u.constants
    exact hstep.trans (ih (exec u stmt))

/-- If the constants end as they began, no statement has combined two. -/
theorem oneConstant_of_init (stmts : List Statement) (u : TranslationUnit)
    (hu : Grown .init u.constants) (h : (stmts.foldl exec u).constants = .init) :
    ∀ stmt ∈ stmts, stmt.expr.OneConstant := by
  induction stmts generalizing u with
  | nil => exact fun stmt hmem => absurd hmem List.not_mem_nil
  | cons stmt stmts ih =>
    have hconst : (exec u stmt).constants = (stmt.expr.eval u.constants).2 := by
      cases stmt with
      | eval e => rfl
      | addMapping p handler method => rfl
    have hstep : Grown .init (exec u stmt).constants := by
      rw [hconst]
      exact hu.trans (eval_grown _ _)
    have hleft : ∀ c ∈ stmt.expr.consts, c = stmt.expr.leftmost := by
      intro c hc
      have hgain := eval_gains stmt.expr u.constants hu c hc
      rw [← hconst] at hgain
      have hend := grown_foldl stmts (exec u stmt) _ _ hgain
      rw [← List.foldl_cons, h, names_init] at hend
      exact name_injective c _ hend
    intro s hs
    rcases List.mem_cons.mp hs with rfl | hs
    · intro c hc d hd
      rw [hleft c hc, hleft d hd]
    · exact ih (exec u stmt) hstep h s hs

/-- **Routes and their methods.**  After every prefix of the statements the
routes keep their methods apart and the constants are unchanged, exactly if
every expression is written with one constant.  What a route accepts reaches its
handler by `handleRequest_accepted`, what it refuses does not by
`handleRequest_refused`. -/
theorem methods_apart_iff (stmts : List Statement) :
    (∀ pre, pre <+: stmts → Apart pre) ↔ ∀ stmt ∈ stmts, stmt.expr.OneConstant := by
  constructor
  · intro h
    exact oneConstant_of_init stmts {} (fun _ _ hm => hm) (h stmts List.prefix_rfl).1
  · intro h pre hpre
    obtain ⟨hconst, hmethods⟩ := foldl_exec pre {} rfl fun stmt hs => h stmt (hpre.subset hs)
    refine ⟨hconst, ?_⟩
    intro path e he m
    have hat : methodAt (run pre).resourceMap path = some (Constants.init e.leftmost) := by
      rw [run, hmethods, he]
      rfl
    obtain ⟨stmt, hs, rfl⟩ := registered_mem pre path e he
    rw [accepts_iff, hat, OneConstant.names (h stmt (hpre.subset hs))]
    constructor
    · rintro ⟨hm, hinj, hmem⟩
      obtain rfl := Option.some.inj hinj
      exact (names_init _ m).mp hmem
    · rintro rfl
      exact ⟨_, rfl, (names_init _ _).mpr rfl⟩

/-- `/a` for `GET_METHOD | POST_METHOD`, then `/b` for the default. -/
def twoRoutes : List Statement :=
  [.addMapping (bytes "/a") (.methodHandler none) (some (.or .leftFirst (.const .get) (.const .post))),
    .addMapping (bytes "/b") (.methodHandler none) none]

/-- `/b` is registered for `GET` alone, and accepts `POST`. -/
theorem default_accepts_post :
    registered twoRoutes (bytes "/b") = some (.const .get) ∧
      bytes "POST" ∉ MethodExpr.names (.const .get) ∧
      accepts (run twoRoutes).resourceMap (bytes "/b") (bytes "POST") = true ∧
      ¬ Apart twoRoutes := by
  have hb : registered twoRoutes (bytes "/b") = some (.const .get) := by decide +kernel
  have hpost : bytes "POST" ∉ MethodExpr.names (.const .get) := by decide +kernel
  have haccepts : accepts (run twoRoutes).resourceMap (bytes "/b") (bytes "POST") = true := by
    decide +kernel
  exact ⟨hb, hpost, haccepts, fun h => hpost ((h.2 _ _ hb _).mp haccepts)⟩

end HttpServer

end Ehttp
