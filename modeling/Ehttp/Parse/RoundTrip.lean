import Ehttp.Multipart.Decode
import Ehttp.Multipart.Refusal
import Ehttp.Parse.Body

/-!
# Multipart round trip

A form written by `encodeParts` and sent as a POST is parsed to its parts.
-/

namespace Ehttp

open Lib

/-- The Content-Type of a form. -/
def formContentType (B : Bytes) : Bytes := bytes "multipart/form-data; boundary=" ++ B

theorem multipartBoundary_form (B : Bytes) (h : LegalBoundary B) :
    multipartBoundary (formContentType B) = some (bytes "--" ++ B) := by
  have h59 : (59 : UInt8) ∉ B := fun hc => (h.chars 59 hc).2.1 rfl
  have h61 : (61 : UInt8) ∉ B := fun hc => (h.chars 61 hc).2.2 rfl
  have htype : bytes "multipart/form-data; boundary=" =
      bytes "multipart/form-data" ++ 59 :: (bytes " boundary" ++ [61]) := by decide
  have hct : formContentType B =
      bytes "multipart/form-data" ++ 59 :: (bytes " boundary" ++ 61 :: B) := by
    rw [formContentType, htype]
    simp
  have hsemi : ssSplitStr (formContentType B) 59 =
      [bytes "multipart/form-data", bytes " boundary" ++ 61 :: B] := by
    rw [hct]
    apply ssSplitStr_two
    · decide
    · simpa [h59] using (by decide : (59 : UInt8) ∉ bytes " boundary")
    · simp
  have hequals : ssSplitStr (bytes " boundary" ++ 61 :: B) 61 = [bytes " boundary", B] := by
    apply ssSplitStr_two
    · decide
    · exact h61
    · exact h.nonempty
  simp only [multipartBoundary, hsemi, hequals]

theorem contains_form (B : Bytes) :
    contains (bytes "multipart/form-data") (formContentType B) = true := by
  rw [contains_iff]
  have htype : bytes "multipart/form-data; boundary=" =
      bytes "multipart/form-data" ++ bytes "; boundary=" := by decide
  refine ⟨[], bytes "; boundary=" ++ B, ?_⟩
  rw [formContentType, htype]
  simp

theorem length_disposition_le (B : Bytes) (parts : List MultipartPart) (p : MultipartPart)
    (h : p ∈ parts) : p.disposition.length ≤ (encodeParts B parts).length := by
  induction parts with
  | nil => exact nomatch h
  | cons q parts ih =>
    rcases List.mem_cons.mp h with rfl | h
    · simp only [encodeParts, MultipartPart.encode, headerLine, List.length_append]
      omega
    · have hq := ih h
      simp only [encodeParts, List.length_append]
      omega

theorem decimal_ne_nil (n : Nat) : decimal n ≠ [] := by
  have hdigits : Nat.toDigits 10 n ≠ [] := Nat.toDigits_ne_nil
  simp [decimal, hdigits]

/-- **Round trip.**  However it is cut into segments, a form sent as a POST
within the size limit is accepted, its file items are its parts, and the params
of a name are the data of the parts with that name. -/
theorem parts_roundtrip (B epilogue : Bytes) (parts : List MultipartPart) (hB : LegalBoundary B)
    (hne : parts ≠ []) (hparts : ∀ p ∈ parts, p.Legal B) (m : Message) (hpost : m.method = .post)
    (hct : m.header (bytes "Content-Type") = formContentType B)
    (hlength : m.header (bytes "Content-Length") = decimal m.body.length)
    (hbody : m.body = encodeParts B parts ++ epilogue) (hinside : m.body.length ≤ m.size)
    (hmax : m.size ≤ MAX_REQ_SIZE) (segs : List Segment) (h : Trace m segs) :
    (feed {} segs).1.getLast? = some (.ret 0) ∧
      (feed {} segs).2.body.fileItems = parts.map MultipartPart.item ∧
      ∀ name, (feed {} segs).2.getParams name =
        (parts.filter (·.name = name)).map (·.data) := by
  have hlen : ∀ p ∈ parts, p.disposition.length < 2 ^ 64 := by
    intro p hp
    have hle := length_disposition_le B parts p hp
    rw [hbody, List.length_append] at hinside
    simp only [MAX_REQ_SIZE] at hmax
    omega
  have hraw : m.body ≠ [] := by
    rw [hbody, encodeParts_eq]
    have hhyphens : bytes "--" ≠ [] := by decide
    simp [hhyphens]
  have hdecode := parseMultipartBody_encodeParts (formContentType B) B epilogue hB
    (multipartBoundary_form B hB) { rawString := m.body } parts hne hparts hlen hbody
  have hmessage : messageBody (m.header (bytes "Content-Type")) { rawString := m.body } =
      parseMultipartBody (formContentType B) { rawString := m.body } := by
    rw [hct]
    exact messageBody_multipart _ _ (contains_form B) hraw
  have hcl : m.header (bytes "Content-Length") ≠ [] := by
    rw [hlength]
    exact decimal_ne_nil _
  have hok := m.headOut_post hcl
  obtain ⟨k, r, hfeed, hsame, -⟩ := feed_trace m segs h
  have hsame := hsame hmax
  rw [hfeed]
  have hitems : r.body = ({ rawString := m.body, fileItems := parts.map MultipartPart.item } :
      RequestBody).parseMultiParams.2 := by
    rw [hsame.body, m.request_body hok, hmessage, hdecode]
    rfl
  have hmethod := m.getMethod_post (Message.headers_ne_nil hcl) hpost r hsame
  refine ⟨?_, ?_, ?_⟩
  · rw [List.getLast?_append, m.verdict_body hok hmax, hmessage, hdecode]
    rfl
  · rw [hitems]
    rfl
  · intro name
    have hget : bytes "POST" ≠ bytes "GET" := by decide
    simp only [Request.getParams, hmethod, hget, ↓reduceIte, List.nil_append]
    rw [hitems]
    simp only [RequestBody.getParams, RequestParam.getParams, StdMultimap.equalRange,
      RequestBody.parseMultiParams, addParamPairs, List.nil_append, List.map_map, List.filter_map]
    rfl

/-- Two parts, each with the start of a delimiter in its data. -/
def twoParts : List MultipartPart :=
  [⟨bytes "a", none, none, crlf ++ bytes "--"⟩,
   ⟨bytes "f", some (bytes "n.txt"), some (bytes "text/plain"), [CR, CR, LF, 45, 0]⟩]

theorem twoParts_legal : ∀ p ∈ twoParts, p.Legal (bytes "B") := by
  intro p hp
  simp only [twoParts, List.mem_cons, List.not_mem_nil, or_false] at hp
  rcases hp with rfl | rfl
  · constructor
    · unfold MultipartPart.LegalName
      decide +kernel
    · exact nofun
    · exact nofun
    · decide +kernel
  · constructor
    · unfold MultipartPart.LegalName
      decide +kernel
    · intro filename hf
      obtain rfl : bytes "n.txt" = filename := Option.some.inj hf
      unfold MultipartPart.LegalName
      decide +kernel
    · intro contentType hc
      obtain rfl : bytes "text/plain" = contentType := Option.some.inj hc
      decide +kernel
    · decide +kernel

def twoPartsMessage : Message :=
  { method := .post, url := bytes "/", httpMajor := 1, httpMinor := 1
    headers := [(bytes "content-type", formContentType (bytes "B")),
      (bytes "Content-Length", bytes "160")]
    body := encodeParts (bytes "B") twoParts, trailers := [], headLf := 99, size := 260 }

theorem parts_roundtrip_two :
    (feed {} [twoPartsMessage.segment]).1.getLast? = some (.ret 0) ∧
      (feed {} [twoPartsMessage.segment]).2.body.fileItems = twoParts.map MultipartPart.item ∧
      ∀ name, (feed {} [twoPartsMessage.segment]).2.getParams name =
        (twoParts.filter (·.name = name)).map (·.data) :=
  parts_roundtrip (bytes "B") [] twoParts ⟨by decide +kernel, by decide +kernel⟩ (by simp [twoParts])
    twoParts_legal twoPartsMessage rfl (by decide +kernel) (by decide +kernel) (by decide +kernel)
    (by decide +kernel) (by decide +kernel) _ (trace_segment twoPartsMessage (by decide +kernel))

end Ehttp
