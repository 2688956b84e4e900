import Ehttp.Multipart.Kept
import Ehttp.Parse.RoundTrip

/-!
# Part headers of a form

Is a form parsed to the same items when the header lines of its parts are
permuted, written in other letters or joined by others?

* `part_headers_iff`: exactly when the variant is `Kept`, if the form itself is
  accepted;
* `type_first_refused`: not when `Content-Type` comes first.
-/

namespace Ehttp

open Lib

/-- A POST with a form as its body. -/
structure Message.CarriesForm (m : Message) (B body : Bytes) : Prop where
  post : m.method = .post
  contentType : m.header (bytes "Content-Type") = formContentType B
  contentLength : m.header (bytes "Content-Length") = decimal m.body.length
  body : m.body = body
  size : m.size ≤ MAX_REQ_SIZE

/-- The same result and the same items. -/
def SameOutcome (out out' : List Exit × Request) : Prop :=
  out.1.getLast? = out'.1.getLast? ∧
    out.2.body.fileItems.map FileItem.content = out'.2.body.fileItems.map FileItem.content

theorem runAll_rawString (es : List MultipartEvent) (b : RequestBody) (raw : Bytes) :
    runAll multipartCallback es { b with rawString := raw } =
      ((runAll multipartCallback es b).1,
        { (runAll multipartCallback es b).2 with rawString := raw }) :=
  RunAll.runAll_simulation multipartCallback multipartCallback
    (fun b : RequestBody => { b with rawString := raw }) es b
    (fun e b => multipartCallback_rawString e b raw)

/-- What becomes of a form with any header lines. -/
theorem feed_headed (B epilogue : Bytes) (hB : LegalBoundary B) (vs : List HeadedPart)
    (hne : vs ≠ []) (hlegal : ∀ v ∈ vs, v.Legal B) (m : Message)
    (hm : m.CarriesForm B (encodeHeaded B vs ++ epilogue)) (segs : List Segment)
    (h : Trace m segs) :
    ∃ ess : List (List MultipartEvent), List.Forall₂ HeadedPart.Events vs ess ∧
      (feed {} segs).1.getLast? =
        some (bodyVerdict (parseRet
          (runAll multipartCallback (ess.flatten ++ [.bodyEnd]) {}).1)) ∧
      (feed {} segs).2.body.fileItems =
        (runAll multipartCallback (ess.flatten ++ [.bodyEnd]) {}).2.fileItems := by
  have hlength : m.header (bytes "Content-Length") ≠ [] := by
    rw [hm.contentLength]
    exact decimal_ne_nil _
  obtain ⟨hlast, hbody⟩ := m.feed_body (m.headOut_post hlength) hm.size segs h
  obtain ⟨ess, p, hlog, hess⟩ := MultipartParser.log_encodeHeaded B epilogue hB vs hne hlegal
  have hraw : m.body ≠ [] := by
    rw [hm.body, encodeHeaded]
    have hhyphens : bytes "--" ≠ [] := by decide
    simp [hhyphens]
  rw [hm.contentType, messageBody_multipart _ _ (contains_form B) hraw,
    parseMultipartBody_log _ _ _ hraw (multipartBoundary_form B hB) _ p
      (by rw [hm.body]; exact hlog)] at hlast hbody
  have hrun := runAll_rawString (ess.flatten ++ [.bodyEnd]) {} m.body
  refine ⟨ess, hess, ?_, ?_⟩
  · rw [hlast, hrun]
  · rw [hbody, hrun]

/-- The end of the body adds no item. -/
theorem run_bodyEnd (es : List MultipartEvent) (b : RequestBody)
    (hok : (runAll multipartCallback (es ++ [.bodyEnd]) b).1 = none) :
    (runAll multipartCallback es b).1 = none ∧
      (runAll multipartCallback (es ++ [.bodyEnd]) b).2.fileItems =
        (runAll multipartCallback es b).2.fileItems := by
  have hes := RunAll.runAll_append_none _ es _ b hok
  refine ⟨hes, ?_⟩
  rw [RunAll.runAll_append_ok _ _ _ _ hes]
  rfl

/-- **Part headers.**  A form whose part headers are permuted, written in other
letters or joined by others is parsed as the plain form is if the variant is kept
and nothing stands in front of the first `Content-Disposition`; and, where the
plain form is accepted, only then. -/
theorem part_headers_iff (B epilogue : Bytes) (hB : LegalBoundary B)
    (ps : List (FormPart × HeadedPart)) (hne : ps ≠ []) (hlegal : ∀ x ∈ ps, x.1.Legal B)
    (hvaries : ∀ x ∈ ps, Varies x.1 x.2) (plain varied : Message)
    (hplain : plain.CarriesForm B (encodeHeaded B (ps.map (·.1.headed)) ++ epilogue))
    (hvaried : varied.CarriesForm B (encodeHeaded B (ps.map (·.2)) ++ epilogue))
    (segs segs' : List Segment) (h : Trace plain segs) (h' : Trace varied segs') :
    (leadingOf ps = [] ∧ Kept ps → SameOutcome (feed {} segs') (feed {} segs)) ∧
      ((∀ x ∈ ps, x.1.described ≠ none) →
        (SameOutcome (feed {} segs') (feed {} segs) ↔ leadingOf ps = [] ∧ Kept ps)) := by
  obtain ⟨ess, hes, hlast, hitems⟩ := feed_headed B epilogue hB (ps.map (·.1.headed)) (by simpa)
    (fun v hv => by
      obtain ⟨x, hx, rfl⟩ := List.mem_map.mp hv
      exact x.1.varies_headed.legal (hlegal x hx)) plain hplain segs h
  obtain ⟨ess', hes', hlast', hitems'⟩ := feed_headed B epilogue hB (ps.map (·.2)) (by simpa)
    (fun v hv => by
      obtain ⟨x, hx, rfl⟩ := List.mem_map.mp hv
      exact (hvaries x hx).legal (hlegal x hx)) varied hvaried segs' h'
  have hforward : leadingOf ps = [] ∧ Kept ps → SameOutcome (feed {} segs') (feed {} segs) := by
    rintro ⟨hlead, hkept⟩
    have hrun := run_first_kept ps ess' ess hes' hes hvaries [.bodyEnd] {} hlead hkept
    rw [SameOutcome, hlast, hlast', hitems, hitems', hrun]
    exact ⟨rfl, rfl⟩
  refine ⟨hforward, fun hread => ⟨?_, hforward⟩⟩
  rintro ⟨hverdict, hsame⟩
  have hread' : ∀ p ∈ ps.map (·.1), p.described ≠ none := by
    intro p hp
    obtain ⟨x, hx, rfl⟩ := List.mem_map.mp hp
    exact hread x hx
  have hrun := run_plain (ps.map (·.1)) ess (by simpa using hes) hread' [.bodyEnd] {}
  rw [hlast, hlast', hrun, Option.some.injEq] at hverdict
  have hok := (parseRet_zero _).mp ((bodyVerdict_zero _).mp (hverdict.trans rfl))
  obtain ⟨hnone, hend⟩ := run_bodyEnd ess'.flatten {} hok
  rw [hitems, hitems', hrun, hend] at hsame
  refine kept_of_first_run ps ess' hes' hvaries hread {} rfl hnone ?_
  rw [hsame]
  simp [runAll, multipartCallback, ssOnMultipartBodyEnd, RequestBody.parseMultiParams]

/-- One part, and the same part with its `Content-Type` first. -/
def typeFirst : List (FormPart × HeadedPart) :=
  [(⟨bytes " form-data; name=\"a\"", some (bytes " text/plain"), bytes "1"⟩,
    ⟨[(typeName, bytes " text/plain"), (dispositionName, bytes " form-data; name=\"a\"")],
      bytes "1"⟩)]

theorem typeFirst_legal : ∀ x ∈ typeFirst, x.1.Legal (bytes "B") := by
  intro x hx
  obtain rfl := List.mem_singleton.mp hx
  constructor
  · decide
  · intro text ht
    obtain rfl : bytes " text/plain" = text := Option.some.inj ht
    decide
  · decide

theorem typeFirst_varies : ∀ x ∈ typeFirst, Varies x.1 x.2 := by
  intro x hx
  obtain rfl := List.mem_singleton.mp hx
  refine ⟨rfl, [], by simp, ?_⟩
  rw [List.append_nil]
  exact List.Perm.swap _ _ []

/-- A POST with the parts as its body. -/
def formMessage (vs : List HeadedPart) : Message :=
  { method := .post, url := bytes "/", httpMajor := 1, httpMinor := 1
    headers := [(bytes "Content-Type", formContentType (bytes "B")),
      (bytes "Content-Length", bytes "83")]
    body := encodeHeaded (bytes "B") vs, trailers := [], headLf := 99, size := 183 }

theorem formMessage_trace (vs : List HeadedPart) :
    Trace (formMessage vs) [(formMessage vs).segment] := by
  apply trace_segment
  show 99 < 183
  decide

theorem part_headers_iff_typeFirst :
    (leadingOf typeFirst = [] ∧ Kept typeFirst →
      SameOutcome (feed {} [(formMessage (typeFirst.map (·.2))).segment])
        (feed {} [(formMessage (typeFirst.map (·.1.headed))).segment])) ∧
    ((∀ x ∈ typeFirst, x.1.described ≠ none) →
      (SameOutcome (feed {} [(formMessage (typeFirst.map (·.2))).segment])
        (feed {} [(formMessage (typeFirst.map (·.1.headed))).segment]) ↔
          leadingOf typeFirst = [] ∧ Kept typeFirst)) := by
  have hB : LegalBoundary (bytes "B") := ⟨by decide, by decide +kernel⟩
  have hplain : (formMessage (typeFirst.map (·.1.headed))).CarriesForm (bytes "B")
      (encodeHeaded (bytes "B") (typeFirst.map (·.1.headed)) ++ []) :=
    ⟨rfl, by decide +kernel, by decide +kernel, by decide +kernel, by decide +kernel⟩
  have hvaried : (formMessage (typeFirst.map (·.2))).CarriesForm (bytes "B")
      (encodeHeaded (bytes "B") (typeFirst.map (·.2)) ++ []) :=
    ⟨rfl, by decide +kernel, by decide +kernel, by decide +kernel, by decide +kernel⟩
  have hne : typeFirst ≠ [] := by simp [typeFirst]
  exact part_headers_iff (bytes "B") [] hB typeFirst hne typeFirst_legal typeFirst_varies _ _
    hplain hvaried _ _ (formMessage_trace _) (formMessage_trace _)

/-- The part is refused when its `Content-Type` comes first. -/
theorem type_first_refused :
    (∀ x ∈ typeFirst, Varies x.1 x.2) ∧
      Trace (formMessage (typeFirst.map (·.1.headed)))
        [(formMessage (typeFirst.map (·.1.headed))).segment] ∧
      Trace (formMessage (typeFirst.map (·.2)))
        [(formMessage (typeFirst.map (·.2))).segment] ∧
      (feed {} [(formMessage (typeFirst.map (·.1.headed))).segment]).1 = [.ret 0] ∧
      (feed {} [(formMessage (typeFirst.map (·.2))).segment]).1 = [.ret PARSE_MULTIPART_ERR] ∧
      ¬ SameOutcome (feed {} [(formMessage (typeFirst.map (·.2))).segment])
        (feed {} [(formMessage (typeFirst.map (·.1.headed))).segment]) := by
  have hplain : (feed {} [(formMessage (typeFirst.map (·.1.headed))).segment]).1 = [.ret 0] := by
    decide +kernel
  have hvaried : (feed {} [(formMessage (typeFirst.map (·.2))).segment]).1 =
      [.ret PARSE_MULTIPART_ERR] := by decide +kernel
  refine ⟨typeFirst_varies, formMessage_trace _, formMessage_trace _, hplain, hvaried, ?_⟩
  rintro ⟨hlast, -⟩
  rw [hplain, hvaried] at hlast
  exact absurd hlast (by decide)

end Ehttp
