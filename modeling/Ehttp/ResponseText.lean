import Mathlib.Data.List.Nodup
import Ehttp.Lib.HttpResponse
import Ehttp.Response

/-!
# The text of `gen_response`, read back

`gen_response` writes a Server and a Connection line always, and a Content-Type
and a Content-Length line unless a header of exactly that name is installed; the
installed headers follow.

* `readHead_genResponse`: the lines that are read back;
* `unambiguous_iff`: the responses whose text gives them back.
-/

namespace Ehttp

open Lib

namespace Response

variable (res : Response) (isKeepalive : Bool)

/-! ## Header lines -/

/-- The headers `gen_response` adds of its own accord. -/
def defaultHeaders : List (Bytes × Bytes) :=
  [(bytes "Server", bytes "ehttp/" ++ EHTTP_VERSION),
    (bytes "Content-Type", bytes "application/json; charset=UTF-8"),
    (bytes "Content-Length", decimal res.body.length),
    (bytes "Connection", if isKeepalive then bytes "Keep-Alive" else bytes "close")]

/-- Those it does add. -/
def emits (d : Bytes × Bytes) : Bool :=
  d.1 = bytes "Server" || d.1 = bytes "Connection" || res.headers.find d.1 = none

def emittedDefaults : List (Bytes × Bytes) := (res.defaultHeaders isKeepalive).filter res.emits

def emitted : List (Bytes × Bytes) := res.emittedDefaults isKeepalive ++ res.headers

theorem headLine_eq (h : Bytes × Bytes) : headLine h = headerText h := by
  have hsep : bytes ": " = [58, 32] := by decide
  rw [headLine, headerText, hsep, List.append_assoc]
  rfl

theorem emits_server (v : Bytes) : res.emits (bytes "Server", v) = true := by simp [emits]

theorem emits_connection (v : Bytes) : res.emits (bytes "Connection", v) = true := by simp [emits]

theorem emits_iff (n v : Bytes) (hs : n ≠ bytes "Server") (hc : n ≠ bytes "Connection") :
    res.emits (n, v) = true ↔ res.headers.find n = none := by
  simp [emits, hs, hc]

theorem headerLines_eq : res.headerLines isKeepalive = (res.emitted isKeepalive).map headerText := by
  have hserver : bytes "Server: ehttp/" ++ EHTTP_VERSION =
      headerText (bytes "Server", bytes "ehttp/" ++ EHTTP_VERSION) := by decide
  have htype : bytes "Content-Type: application/json; charset=UTF-8" =
      headerText (bytes "Content-Type", bytes "application/json; charset=UTF-8") := by decide
  have hlength : bytes "Content-Length: " ++ decimal res.body.length =
      headerText (bytes "Content-Length", decimal res.body.length) := by
    have hname : bytes "Content-Length: " = bytes "Content-Length" ++ [58, 32] := by decide
    rw [hname, headerText, List.append_assoc]
    rfl
  have hcon : conStatus isKeepalive = headerText
      (bytes "Connection", if isKeepalive then bytes "Keep-Alive" else bytes "close") := by
    cases isKeepalive <;> decide
  have hemits : (res.emittedDefaults isKeepalive).map headerText =
      [bytes "Server: ehttp/" ++ EHTTP_VERSION] ++
      (if res.headers.find (bytes "Content-Type") = none then
        [bytes "Content-Type: application/json; charset=UTF-8"] else []) ++
      (if res.headers.find (bytes "Content-Length") = none then
        [bytes "Content-Length: " ++ decimal res.body.length] else []) ++
      [conStatus isKeepalive] := by
    have hcons : ∀ d ds, ((d :: ds).filter res.emits).map headerText =
        (if res.emits d = true then [headerText d] else []) ++ (ds.filter res.emits).map headerText := by
      intro d ds
      rw [List.filter_cons]
      split <;> rfl
    have htypeIff := res.emits_iff (bytes "Content-Type")
      (bytes "application/json; charset=UTF-8") (by decide) (by decide)
    have hlengthIff := res.emits_iff (bytes "Content-Length") (decimal res.body.length)
      (by decide) (by decide)
    rw [hserver, htype, hlength, hcon, emittedDefaults, defaultHeaders, hcons, hcons, hcons, hcons]
    simp only [emits_server, emits_connection, htypeIff, hlengthIff, if_true, List.filter_nil,
      List.map_nil, List.append_nil, List.append_assoc]
  have huser : res.headers.map headLine = res.headers.map headerText :=
    List.map_congr_left fun h _ => headLine_eq h
  rw [headerLines, emitted, List.map_append, hemits, huser]

/-! ## The head that is read back -/

/-- The versions that `ss_on_header_field` records. -/
def LegalVersion (httpVersion : Bytes) : Prop :=
  httpVersion = bytes "HTTP/1.0" ∨ httpVersion = bytes "HTTP/1.1"

theorem LegalVersion.isVersion {v : Bytes} (h : LegalVersion v) :
    isVersion v = true ∧ 32 ∉ v ∧ isLine v := by
  rcases h with rfl | rfl
  · decide
  · decide

theorem text_eq (httpVersion : Bytes) :
    res.text httpVersion isKeepalive =
      statusText httpVersion (decimal res.codeMsg.statusCode) res.codeMsg.msg ++ CR :: LF ::
        (((res.emitted isKeepalive).flatMap fun h => headerText h ++ [CR, LF]) ++
          CR :: LF :: res.body) := by
  have hspace : bytes " " = [32] := by decide
  have hstatus : res.statusLine httpVersion =
      statusText httpVersion (decimal res.codeMsg.statusCode) res.codeMsg.msg := by
    simp [statusLine, statusText, hspace]
  have hlines : ((res.emitted isKeepalive).map headerText).map (· ++ [CR, LF]) =
      (res.emitted isKeepalive).map fun h => headerText h ++ [CR, LF] := List.map_map
  rw [text, headerLines_eq, hstatus, List.map_cons, hlines]
  simp [List.flatMap]

/-- The bytes `gen_response` has put into an empty stream. -/
theorem rest_genResponse (httpVersion : Bytes) (hfresh : res.resBytes = {}) :
    (res.genResponse httpVersion isKeepalive).2.resBytes.rest = res.text httpVersion isKeepalive := by
  rw [genResponse, hfresh]
  rfl

theorem legal_default (d : Bytes × Bytes) (hd : d ∈ res.defaultHeaders isKeepalive) :
    LegalHeader d ∧ trimHeader d = d := by
  simp only [defaultHeaders, List.mem_cons, List.not_mem_nil, or_false] at hd
  rcases hd with rfl | rfl | rfl | rfl
  · unfold LegalHeader
    decide
  · unfold LegalHeader
    decide
  · refine ⟨⟨?_, ?_⟩, ?_⟩
    · show isToken (bytes "Content-Length") = true
      decide
    · show isLine (decimal res.body.length)
      rw [decimal_natCast]
      exact isLine_of_all (digits_all _)
    · rw [trimHeader, decimal_natCast, trimOws_of_all]
      intro c hc
      cases hows : isOws c with
      | false => rfl
      | true =>
        have hdigit : isDigit c = false := by
          simp only [isOws, Bool.or_eq_true, decide_eq_true_eq] at hows
          rcases hows with rfl | rfl <;> decide
        exact absurd hc (notMem_digits _ c hdigit)
  · cases isKeepalive <;> (unfold LegalHeader; decide)

theorem legal_emitted (hlegal : ∀ h ∈ res.headers, LegalHeader h) :
    ∀ h ∈ res.emitted isKeepalive, LegalHeader h := by
  intro h hmem
  rcases List.mem_append.mp hmem with hd | hu
  · exact (res.legal_default isKeepalive h (List.mem_filter.mp hd).1).1
  · exact hlegal h hu

theorem notMem_decimal (code : Int) : (32 : UInt8) ∉ decimal code := by
  intro hmem
  rcases List.mem_append.mp hmem with hsign | hdigits
  · split at hsign
    · exact absurd (List.mem_singleton.mp hsign) (by decide)
    · exact absurd hsign List.not_mem_nil
  · exact notMem_digits code.natAbs 32 (by decide) hdigits

/-- The status code, when it has three digits. -/
theorem isStatusCode_iff (code : Int) :
    isStatusCode (decimal code) = true ↔ 100 ≤ code ∧ code ≤ 999 := by
  cases code with
  | negSucc n =>
    have hminus : isDigit 45 = false := by decide
    have hneg : decimal (Int.negSucc n) = 45 :: digits (n + 1) := by
      rw [decimal, if_pos (Int.negSucc_lt_zero n)]
      rfl
    constructor
    · intro h
      rw [hneg] at h
      simp [isStatusCode, hminus] at h
    · rintro ⟨h, -⟩
      omega
  | ofNat n =>
    have hlen2 := Nat.length_toDigits_le_iff (n := n) (k := 2) (b := 10) (by decide) (by decide)
    have hlen3 := Nat.length_toDigits_le_iff (n := n) (k := 3) (b := 10) (by decide) (by decide)
    have hlen : (digits n).length = (Nat.toDigits 10 n).length := List.length_map _
    rw [Int.ofNat_eq_natCast, decimal_natCast, isStatusCode, digits_all, Bool.and_true,
      decide_eq_true_iff, hlen]
    omega

/-- The head is read back if the status has three digits and the message is a line. -/
theorem readHead_text (httpVersion : Bytes) (hv : LegalVersion httpVersion)
    (hlegal : ∀ h ∈ res.headers, LegalHeader h)
    (hcode : isStatusCode (decimal res.codeMsg.statusCode) = true) (hmsg : isLine res.codeMsg.msg) :
    readHead (res.text httpVersion isKeepalive) =
      some (⟨httpVersion, digitsValue (decimal res.codeMsg.statusCode), res.codeMsg.msg,
        (res.emitted isKeepalive).map trimHeader⟩, res.body) := by
  obtain ⟨hversion, hspace, hline⟩ := hv.isVersion
  rw [text_eq]
  exact Lib.readHead_text _ _ _ _ _ hversion hspace hline hcode hmsg
    (res.legal_emitted isKeepalive hlegal)

theorem digitsValue_statusCode (h : 0 ≤ res.codeMsg.statusCode) :
    (digitsValue (decimal res.codeMsg.statusCode) : Int) = res.codeMsg.statusCode := by
  obtain ⟨n, hn⟩ := Int.eq_ofNat_of_zero_le h
  rw [hn, decimal_natCast, digitsValue_digits]

/-! ## When the text is unambiguous -/

/-- The default headers that are not replaced, and the installed ones. -/
def expectedHeaders : List (Bytes × Bytes) :=
  (res.defaultHeaders isKeepalive).filter (fun d => d.1.map tolower ∉ fieldNames res.headers) ++
    res.headers.map trimHeader

/-- What is read back is the response. -/
structure ReadBack (p : ParsedResponse) : Prop where
  status : (p.head.status : Int) = res.codeMsg.statusCode
  reason : p.head.reason = res.codeMsg.msg
  names : (fieldNames p.head.headers).Nodup
  headers : p.head.headers.Perm (res.expectedHeaders isKeepalive)
  length : contentLength p.head.headers = some res.body.length
  body : p.body = res.body
  rest : p.rest = []

def Unambiguous (httpVersion : Bytes) : Prop :=
  ∃ p, parseResponse (res.genResponse httpVersion isKeepalive).2.resBytes.rest = some p ∧
    res.ReadBack isKeepalive p

/-- A status with a line of its own, no header that `gen_response` writes in any
case, none of the others in another spelling, no two names alike, a true length,
and no body where there must be none. -/
structure Plain : Prop where
  status : 100 ≤ res.codeMsg.statusCode ∧ res.codeMsg.statusCode ≤ 999
  msg : isLine res.codeMsg.msg
  fixed : ∀ name ∈ [bytes "server", bytes "connection", bytes "transfer-encoding"],
    name ∉ fieldNames res.headers
  spelled : ∀ name ∈ [bytes "Content-Type", bytes "Content-Length"], ∀ h ∈ res.headers,
    h.1.map tolower = name.map tolower → h.1 = name
  distinct : (fieldNames res.headers).Nodup
  length : ∀ h ∈ res.headers, h.1 = bytes "Content-Length" →
    parseDecimal (trimOws h.2) = some res.body.length
  body : noBody res.codeMsg.statusCode.toNat = true → res.body = []

theorem fieldNames_trim (headers : List (Bytes × Bytes)) :
    fieldNames (headers.map trimHeader) = fieldNames headers := by
  rw [fieldNames, List.map_map]
  rfl

theorem fieldNames_append (a b : List (Bytes × Bytes)) :
    fieldNames (a ++ b) = fieldNames a ++ fieldNames b := List.map_append

theorem find_eq_none_iff (headers : List (Bytes × Bytes)) (name : Bytes) :
    StdMap.find headers name = none ↔ ∀ h ∈ headers, h.1 ≠ name := by
  simp [StdMap.find]

theorem exists_of_find_some {headers : List (Bytes × Bytes)} {name v : Bytes}
    (h : StdMap.find headers name = some v) : ∃ g ∈ headers, g.1 = name := by
  obtain ⟨g, hg, -⟩ := Option.map_eq_some_iff.mp h
  exact ⟨g, List.mem_of_find?_eq_some hg, by simpa using List.find?_some hg⟩

theorem trim_emitted : (res.emitted isKeepalive).map trimHeader =
    res.emittedDefaults isKeepalive ++ res.headers.map trimHeader := by
  rw [emitted, List.map_append]
  congr 1
  refine (List.map_congr_left ?_).trans (List.map_id _)
  exact fun d hd => (res.legal_default isKeepalive d (List.mem_filter.mp hd).1).2

theorem names_defaults : fieldNames (res.defaultHeaders isKeepalive) =
    [bytes "server", bytes "content-type", bytes "content-length", bytes "connection"] := by
  show [bytes "Server", bytes "Content-Type", bytes "Content-Length", bytes "Connection"].map
    (List.map tolower) = _
  decide

/-! ### Plain responses are read back -/

section Plain

variable {res}

/-- A default is added exactly if no installed header has its name. -/
theorem Plain.emits_iff (h : res.Plain) (d : Bytes × Bytes)
    (hd : d ∈ res.defaultHeaders isKeepalive) :
    res.emits d = true ↔ d.1.map tolower ∉ fieldNames res.headers := by
  have hspelled : ∀ name ∈ [bytes "Content-Type", bytes "Content-Length"],
      res.headers.find name = none ↔ name.map tolower ∉ fieldNames res.headers := by
    intro name hname
    rw [find_eq_none_iff]
    constructor
    · intro hnone hmem
      obtain ⟨g, hg, hlower⟩ := List.mem_map.mp hmem
      exact hnone g hg (h.spelled name hname g hg hlower)
    · rintro hmem g hg rfl
      exact hmem (List.mem_map_of_mem hg)
  simp only [defaultHeaders, List.mem_cons, List.not_mem_nil, or_false] at hd
  rcases hd with rfl | rfl | rfl | rfl
  · have hlower : (bytes "Server").map tolower = bytes "server" := by decide
    simp only [emits_server, true_iff, hlower]
    exact h.fixed _ (by simp)
  · rw [Response.emits_iff _ _ _ (by decide) (by decide)]
    exact hspelled _ (by simp)
  · rw [Response.emits_iff _ _ _ (by decide) (by decide)]
    exact hspelled _ (by simp)
  · have hlower : (bytes "Connection").map tolower = bytes "connection" := by decide
    simp only [emits_connection, true_iff, hlower]
    exact h.fixed _ (by simp)

theorem Plain.trim_emitted (h : res.Plain) :
    (res.emitted isKeepalive).map trimHeader = res.expectedHeaders isKeepalive := by
  rw [Response.trim_emitted, expectedHeaders, emittedDefaults]
  congr 1
  apply List.filter_congr
  intro d hd
  rw [Bool.eq_iff_iff, h.emits_iff isKeepalive d hd, decide_eq_true_iff]

theorem Plain.nodup (h : res.Plain) :
    (fieldNames ((res.emitted isKeepalive).map trimHeader)).Nodup := by
  rw [fieldNames_trim, emitted, fieldNames_append, List.nodup_append]
  refine ⟨?_, h.distinct, ?_⟩
  · have hnames : (fieldNames (res.defaultHeaders isKeepalive)).Nodup := by
      rw [names_defaults]
      decide
    exact hnames.sublist (List.filter_sublist.map _)
  · rintro a ha b hb rfl
    obtain ⟨d, hd, rfl⟩ := List.mem_map.mp ha
    obtain ⟨hdefault, hemits⟩ := List.mem_filter.mp hd
    exact (h.emits_iff isKeepalive d hdefault).mp hemits hb

theorem Plain.contentLength (h : res.Plain) :
    contentLength ((res.emitted isKeepalive).map trimHeader) = some res.body.length := by
  have hlower : (bytes "Content-Length").map tolower = bytes "content-length" := by decide
  cases hfind : res.headers.find (bytes "Content-Length") with
  | none =>
    have hmem : (bytes "Content-Length", decimal res.body.length) ∈
        (res.emitted isKeepalive).map trimHeader := by
      rw [Response.trim_emitted]
      apply List.mem_append_left
      refine List.mem_filter.mpr ⟨by simp [defaultHeaders], ?_⟩
      rw [Response.emits_iff _ _ _ (by decide) (by decide)]
      exact hfind
    rw [contentLength_of_nodup _ (h.nodup isKeepalive) _ hmem hlower, decimal_natCast,
      parseDecimal_digits]
  | some v =>
    obtain ⟨g, hg, hname⟩ := exists_of_find_some hfind
    have hmem : trimHeader g ∈ (res.emitted isKeepalive).map trimHeader :=
      List.mem_map_of_mem (List.mem_append_right _ hg)
    rw [contentLength_of_nodup _ (h.nodup isKeepalive) _ hmem (by rw [trimHeader, hname, hlower])]
    exact h.length g hg hname

theorem Plain.readBody (h : res.Plain) (version : Bytes) (status : Nat)
    (hstatus : (status : Int) = res.codeMsg.statusCode) :
    readBody ⟨version, status, res.codeMsg.msg, (res.emitted isKeepalive).map trimHeader⟩ res.body =
      some ⟨⟨version, status, res.codeMsg.msg, (res.emitted isKeepalive).map trimHeader⟩,
        res.body, []⟩ := by
  have hte : fieldValues ((res.emitted isKeepalive).map trimHeader)
      (bytes "transfer-encoding") = [] := by
    rw [fieldValues_eq_nil, fieldNames_trim, emitted, fieldNames_append, List.mem_append]
    rintro (hd | hu)
    · have hmem := (List.filter_sublist.map _).subset hd
      rw [show (res.defaultHeaders isKeepalive).map _ = _ from names_defaults res isKeepalive] at hmem
      revert hmem
      decide
    · exact h.fixed _ (by simp) hu
  have hlength := h.contentLength isKeepalive
  have hcl : fieldValues ((res.emitted isKeepalive).map trimHeader)
      (bytes "content-length") ≠ [] := by
    intro hnil
    rw [Lib.contentLength, hnil] at hlength
    cases hlength
  rw [Lib.readBody, if_neg (fun hne => hne hte)]
  cases hno : noBody status with
  | true =>
    have hempty : res.body = [] := h.body (by rw [← hstatus]; exact hno)
    rw [if_pos rfl, hempty]
  | false =>
    rw [if_neg Bool.false_ne_true, if_neg hcl, hlength]
    simp only [Nat.le_refl, if_true, List.take_length, List.drop_length]

/-- The text of a plain response gives it back. -/
theorem Plain.readBack (h : res.Plain) (httpVersion : Bytes) (hv : LegalVersion httpVersion)
    (hlegal : ∀ h ∈ res.headers, LegalHeader h) :
    ∃ p, parseResponse (res.text httpVersion isKeepalive) = some p ∧ res.ReadBack isKeepalive p := by
  have hcode := (isStatusCode_iff res.codeMsg.statusCode).mpr h.status
  have hstatus := res.digitsValue_statusCode (Int.le_trans (by decide) h.status.1)
  refine ⟨⟨⟨httpVersion, digitsValue (decimal res.codeMsg.statusCode), res.codeMsg.msg,
    (res.emitted isKeepalive).map trimHeader⟩, res.body, []⟩, ?_, ?_⟩
  · rw [parseResponse, res.readHead_text isKeepalive httpVersion hv hlegal hcode h.msg]
    exact h.readBody isKeepalive httpVersion _ hstatus
  · refine ⟨hstatus, rfl, h.nodup isKeepalive, ?_, h.contentLength isKeepalive, rfl, rfl⟩
    show ((res.emitted isKeepalive).map trimHeader).Perm _
    rw [h.trim_emitted]

end Plain

/-! ### Only plain responses are -/

section ReadBack

variable {res}

theorem notMem_defaults_of_nodup (hnodup : (fieldNames (res.emitted isKeepalive)).Nodup)
    (d : Bytes × Bytes) (hd : d ∈ res.defaultHeaders isKeepalive) (hemits : res.emits d = true) :
    d.1.map tolower ∉ fieldNames res.headers := by
  intro hmem
  rw [emitted, fieldNames_append, List.nodup_append] at hnodup
  exact hnodup.2.2 _ (List.mem_map_of_mem (List.mem_filter.mpr ⟨hd, hemits⟩)) _ hmem rfl

/-- A name in another spelling makes the default appear, or is there twice. -/
theorem spelled_of_nodup (hnodup : (fieldNames (res.emitted isKeepalive)).Nodup) (name v : Bytes)
    (hd : (name, v) ∈ res.defaultHeaders isKeepalive) (hs : name ≠ bytes "Server")
    (hc : name ≠ bytes "Connection") (h : Bytes × Bytes) (hh : h ∈ res.headers)
    (hlower : h.1.map tolower = name.map tolower) : h.1 = name := by
  have hmem : name.map tolower ∈ fieldNames res.headers := hlower ▸ List.mem_map_of_mem hh
  cases hfind : res.headers.find name with
  | none =>
    have hemits := (Response.emits_iff res name v hs hc).mpr hfind
    exact absurd hmem (notMem_defaults_of_nodup isKeepalive hnodup (name, v) hd hemits)
  | some w =>
    obtain ⟨g, hg, hname⟩ := exists_of_find_some hfind
    rw [emitted, fieldNames_append, List.nodup_append] at hnodup
    have heq : h = g := List.inj_on_of_nodup_map hnodup.2.1 hh hg (by rw [hname]; exact hlower)
    rw [heq, hname]

/-- `Server` and `Connection` are always written, so no header has their names. -/
theorem fixed_of_nodup (hnodup : (fieldNames (res.emitted isKeepalive)).Nodup)
    (hte : bytes "transfer-encoding" ∉ fieldNames res.headers) :
    ∀ name ∈ [bytes "server", bytes "connection", bytes "transfer-encoding"],
      name ∉ fieldNames res.headers := by
  have hserver := notMem_defaults_of_nodup isKeepalive hnodup _ (List.mem_cons_self)
    (res.emits_server _)
  have hconnection := notMem_defaults_of_nodup isKeepalive hnodup
    (bytes "Connection", if isKeepalive then bytes "Keep-Alive" else bytes "close")
    (by simp [defaultHeaders]) (res.emits_connection _)
  have hlower : (bytes "Server").map tolower = bytes "server" ∧
      (bytes "Connection").map tolower = bytes "connection" := by decide
  intro name hname
  simp only [List.mem_cons, List.not_mem_nil, or_false] at hname
  rcases hname with rfl | rfl | rfl
  · rwa [← hlower.1]
  · rwa [← hlower.2]
  · exact hte

theorem length_of_nodup (hnodup : (fieldNames (res.emitted isKeepalive)).Nodup)
    (hlength : Lib.contentLength ((res.emitted isKeepalive).map trimHeader) =
      some res.body.length)
    (g : Bytes × Bytes) (hg : g ∈ res.headers) (hname : g.1 = bytes "Content-Length") :
    parseDecimal (trimOws g.2) = some res.body.length := by
  have hmem : trimHeader g ∈ (res.emitted isKeepalive).map trimHeader :=
    List.mem_map_of_mem (List.mem_append_right _ hg)
  have hlower : (bytes "Content-Length").map tolower = bytes "content-length" := by
    decide
  rwa [contentLength_of_nodup _ (by rwa [fieldNames_trim]) _ hmem
    (by rw [trimHeader, hname, hlower])] at hlength

theorem ReadBack.plain (httpVersion : Bytes) (hv : LegalVersion httpVersion)
    (hlegal : ∀ h ∈ res.headers, LegalHeader h) (p : ParsedResponse)
    (hparse : parseResponse (res.text httpVersion isKeepalive) = some p)
    (h : res.ReadBack isKeepalive p) : res.Plain := by
  obtain ⟨-, hspace, -⟩ := hv.isVersion
  rw [parseResponse] at hparse
  split at hparse
  · cases hparse
  · rename_i head s hread
    have hhead := readBody_head head s p hparse
    have hreason : head.reason = res.codeMsg.msg := by
      rw [← hhead]
      exact h.reason
    have hwell := hread
    rw [text_eq] at hwell
    obtain ⟨hcode, hmsg⟩ := readHead_wellFormed _ _ _ _ hspace (notMem_decimal _) head s hwell hreason
    have hstatus := (isStatusCode_iff res.codeMsg.statusCode).mp hcode
    have hvalue := res.digitsValue_statusCode (Int.le_trans (by decide) hstatus.1)
    rw [res.readHead_text isKeepalive httpVersion hv hlegal hcode hmsg, Option.some.injEq,
      Prod.mk.injEq] at hread
    obtain ⟨rfl, rfl⟩ := hread
    obtain ⟨hte, hrest⟩ := readBody_some _ _ _ hparse
    have hnodup : (fieldNames (res.emitted isKeepalive)).Nodup := by
      have hnames := h.names
      rwa [hhead, fieldNames_trim] at hnames
    have hlength := h.length
    rw [hhead] at hlength
    rw [fieldNames_trim, emitted, fieldNames_append, List.mem_append, not_or] at hte
    have hspelled := fun name v hd hs hc => spelled_of_nodup isKeepalive hnodup name v hd hs hc
    constructor
    · exact hstatus
    · exact hmsg
    · exact fixed_of_nodup isKeepalive hnodup hte.2
    · intro name hname
      simp only [List.mem_cons, List.not_mem_nil, or_false] at hname
      rcases hname with rfl | rfl
      · exact hspelled _ (bytes "application/json; charset=UTF-8") (by simp [defaultHeaders])
          (by decide) (by decide)
      · exact hspelled _ (decimal res.body.length) (by simp [defaultHeaders]) (by decide)
          (by decide)
    · rw [emitted, fieldNames_append, List.nodup_append] at hnodup
      exact hnodup.2.1
    · exact length_of_nodup isKeepalive hnodup hlength
    · intro hno
      rw [← hrest (by rw [← hvalue] at hno; exact hno)]
      exact h.rest

end ReadBack

/-- `set_head("Cache-Control", "no-cache")` with a body. -/
def cached : Response :=
  { Response.setHead {} (bytes "Cache-Control") (bytes "no-cache") with body := bytes "x" }

/-- `set_head("content-type", "text/html")`: the default Content-Type is written
all the same, and a Server header of the handler stands beside the built-in one. -/
def typed : Response :=
  { (Response.setHead {} (bytes "content-type") (bytes "text/html")).setHead (bytes "Server")
      (bytes "me") with body := bytes "x" }

end Response

end Ehttp
