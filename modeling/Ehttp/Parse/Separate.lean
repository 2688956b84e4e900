import Ehttp.Multipart.Items
import Ehttp.Parse.Body

/-!
# Parts of a message

Do the file items of an accepted multipart request come from one part each?

* `parts_separate_iff`: exactly if the log of its body is `Separated`;
* `lower_case_part_mixed`: not if a part names its first header in lower case.
-/

namespace Ehttp

open Lib

/-- The items of the request are those the log makes, each from its own part. -/
structure Message.PartsSeparate (m : Message) (r : Request) : Prop where
  items : r.body.fileItems = itemsAfter m.multipartLog { rawString := m.body }
  parts : Ehttp.PartsSeparate m.multipartLog { rawString := m.body }

/-- **Parts.**  The parts of an accepted multipart request are kept apart if and
only if every part that ends has one header named `Content-Disposition`, before
any other header line, and a part without an end has added nothing. -/
theorem parts_separate_iff (m : Message) (segs : List Segment) (h : Trace m segs)
    (hct : contains (bytes "multipart/form-data") (m.header (bytes "Content-Type")) = true)
    (h0 : (feed {} segs).1.getLast? = some (.ret 0)) :
    m.PartsSeparate (feed {} segs).2 ↔ Separated false m.multipartLog := by
  obtain ⟨hv, hsame⟩ := feed_zero h h0
  obtain ⟨hok, hsize, -⟩ := verdict_zero hv
  rw [m.verdict_body hok hsize, bodyVerdict_zero] at hv
  have hrun := accepted_body m hct hv
  rw [← partsSeparate_iff m.multipartLog { rawString := m.body } (by rw [hrun]) rfl]
  constructor
  · intro hparts
    exact hparts.parts
  · intro hparts
    refine ⟨?_, hparts⟩
    rw [hsame.body, m.request_body hok, itemsAfter, hrun]

/-- Two parts; the second writes `content-disposition`. -/
def lowerCaseMessage : Message :=
  { method := .post, url := bytes "/", httpMajor := 1, httpMinor := 1
    headers := [(bytes "Content-Type", bytes "multipart/form-data; boundary=B"),
      (bytes "Content-Length", bytes "109")]
    body :=
      bytes "--B\r\nContent-Disposition: form-data; name=\"a\"\r\n\r\n1\r\n" ++
      bytes "--B\r\ncontent-disposition: form-data; name=\"b\"\r\n\r\n2\r\n--B--"
    trailers := [], headLf := 99, size := 209 }

theorem parts_separate_iff_lowerCase :
    lowerCaseMessage.PartsSeparate (feed {} [lowerCaseMessage.segment]).2 ↔
      Separated false lowerCaseMessage.multipartLog :=
  parts_separate_iff lowerCaseMessage _ (trace_segment lowerCaseMessage (by decide))
    (by decide +kernel) (by decide +kernel)

/-- One item for two parts. -/
theorem lower_case_part_mixed :
    Trace lowerCaseMessage [lowerCaseMessage.segment] ∧
      (feed {} [lowerCaseMessage.segment]).1 = [.ret 0] ∧
      lowerCaseMessage.multipartLog.count .partDataEnd = 2 ∧
      (feed {} [lowerCaseMessage.segment]).2.body.fileItems.map (·.data) = [bytes "12"] ∧
      ¬ lowerCaseMessage.PartsSeparate (feed {} [lowerCaseMessage.segment]).2 := by
  have hcount : lowerCaseMessage.multipartLog.count .partDataEnd = 2 := by decide +kernel
  have hitems : (feed {} [lowerCaseMessage.segment]).2.body.fileItems.map (·.data) =
      [bytes "12"] := by decide +kernel
  refine ⟨trace_segment lowerCaseMessage (by decide), by decide +kernel, hcount, hitems, ?_⟩
  intro h
  have hlen := h.parts.count
  rw [← h.items, hcount, ← List.length_map (·.data), hitems] at hlen
  exact absurd hlen (by decide)

end Ehttp
