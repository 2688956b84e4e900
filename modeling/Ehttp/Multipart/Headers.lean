import Mathlib.Data.List.Forall2
import Ehttp.Multipart.Decode

/-!
# Parts with any headers

A part is a list of header lines and the data.  The parser reports every line,
in order, whatever its name is.

* `read_part`: the events of one part;
* `log_encodeHeaded`: the events of the whole body.
-/

namespace Ehttp

open Lib

/-- A header line is its name and the text behind the colon. -/
structure HeadedPart where
  headers : List (Bytes × Bytes)
  data : Bytes
  deriving DecidableEq, Repr

/-- The value that is reported: spaces in front of it are skipped. -/
def lineValue (h : Bytes × Bytes) : Bytes := h.2.dropWhile (· = 32)

def headerEvents (hs : List (Bytes × Bytes)) : List MultipartEvent :=
  hs.flatMap fun h => [.headerField h.1, .headerValue (lineValue h)]

namespace HeadedPart

def encode (v : HeadedPart) : Bytes :=
  (v.headers.flatMap fun h => fieldLine h.1 h.2) ++ crlf ++ v.data

/-- Names of letters and hyphens, texts within their lines, data without the
delimiter. -/
structure Legal (boundary : Bytes) (v : HeadedPart) : Prop where
  names : ∀ h ∈ v.headers, h.1 ≠ [] ∧ h.1.all MultipartParser.fieldChar
  texts : ∀ h ∈ v.headers, CR ∉ h.2
  data : ¬ crlf ++ bytes "--" ++ boundary <:+: v.data

/-- The data is reported in fragments. -/
def Events (v : HeadedPart) (es : List MultipartEvent) : Prop :=
  ∃ datas : List Bytes, datas.flatten = v.data ∧
    es = .partDataBegin :: (headerEvents v.headers ++
      (.headersComplete :: datas.map .partData ++ [.partDataEnd]))

end HeadedPart

/-- The body with the closing delimiter. -/
def encodeHeaded (boundary : Bytes) (parts : List HeadedPart) : Bytes :=
  bytes "--" ++ boundary ++
    (parts.flatMap fun v => crlf ++ v.encode ++ delimiter (bytes "--" ++ boundary)) ++ bytes "--"

namespace MultipartParser

open MultipartState MultipartEvent

theorem read_headers (hs : List (Bytes × Bytes)) (p : MultipartParser)
    (hp : p.state = sHeaderFieldStart) (hnames : ∀ h ∈ hs, h.1 ≠ [] ∧ h.1.all fieldChar)
    (htexts : ∀ h ∈ hs, CR ∉ h.2) :
    ∃ p', p.read (hs.flatMap fun h => fieldLine h.1 h.2) = some (headerEvents hs, p') ∧
      p'.state = sHeaderFieldStart := by
  induction hs generalizing p with
  | nil => exact ⟨p, rfl, hp⟩
  | cons h hs ih =>
    obtain ⟨hname, hchars⟩ := hnames h (List.mem_cons_self ..)
    obtain ⟨q, hline, hq⟩ :=
      read_fieldLine h.1 h.2 hname hchars (htexts h (List.mem_cons_self ..)) p hp
    obtain ⟨p', hread, hp'⟩ := ih q hq (fun k hk => hnames k (List.mem_cons_of_mem _ hk))
      (fun k hk => htexts k (List.mem_cons_of_mem _ hk))
    refine ⟨p', ?_, hp'⟩
    rw [List.flatMap_cons, read_append p q _ _ _ hline, hread]
    rfl

/-- The parser behind a delimiter. -/
def Behind (p : MultipartParser) : Prop :=
  p.state = sPartDataAlmostEnd ∨ p.state = sStartBoundary ∧ p.index = p.multipartBoundary.length

/-- **One part**, with the delimiter that ends it. -/
theorem read_part (boundary : Bytes) (hne : boundary ≠ []) (hcr : CR ∉ boundary) (B : Bytes)
    (hB : boundary = bytes "--" ++ B) (v : HeadedPart) (h : v.Legal B) (p : MultipartParser)
    (hb : p.multipartBoundary = boundary) (hp : p.Behind) :
    ∃ es p', p.read (crlf ++ v.encode ++ delimiter boundary) = some (es, p') ∧ v.Events es ∧
      p'.multipartBoundary = boundary ∧ p'.state = sPartDataAlmostEnd := by
  obtain ⟨p₁, hbegin, hp₁⟩ := read_partBegin p hp
  obtain ⟨p₂, hheaders, hp₂⟩ := read_headers v.headers p₁ hp₁ h.names h.texts
  obtain ⟨p₃, hempty, hp₃⟩ := read_headersEnd p₂ hp₂
  have hb₃ : p₃.multipartBoundary = boundary :=
    (boundary_read p₂ p₃ _ _ hempty).trans ((boundary_read p₁ p₂ _ _ hheaders).trans
      ((boundary_read p p₁ _ _ hbegin).trans hb))
  have hd : ¬ delimiter boundary <:+: v.data := by
    have hdata := h.data
    rwa [List.append_assoc, ← hB] at hdata
  obtain ⟨datas, p₄, hdata, hflat, hp₄⟩ := read_partData boundary v.data hne hcr hd p₃ hb₃ hp₃
  refine ⟨_, p₄, ?_, ⟨datas, hflat, rfl⟩, (boundary_read p₃ p₄ _ _ hdata).trans hb₃, hp₄⟩
  have hpiece : crlf ++ v.encode ++ delimiter boundary =
      crlf ++ ((v.headers.flatMap fun h => fieldLine h.1 h.2) ++
        (crlf ++ (v.data ++ delimiter boundary))) := by
    simp [HeadedPart.encode]
  rw [hpiece, read_append p p₁ _ _ _ hbegin, read_append p₁ p₂ _ _ _ hheaders,
    read_append p₂ p₃ _ _ _ hempty, hdata]
  simp

theorem read_parts (boundary : Bytes) (hne : boundary ≠ []) (hcr : CR ∉ boundary) (B : Bytes)
    (hB : boundary = bytes "--" ++ B) (parts : List HeadedPart) (h : ∀ v ∈ parts, v.Legal B)
    (p : MultipartParser) (hb : p.multipartBoundary = boundary) (hp : p.Behind) :
    ∃ ess p', p.read (parts.flatMap fun v => crlf ++ v.encode ++ delimiter boundary) =
        some (ess.flatten, p') ∧ List.Forall₂ HeadedPart.Events parts ess ∧
      (parts ≠ [] → p'.state = sPartDataAlmostEnd) := by
  induction parts generalizing p with
  | nil => exact ⟨[], p, rfl, List.Forall₂.nil, fun hn => absurd rfl hn⟩
  | cons v parts ih =>
    obtain ⟨es, q, hpart, hes, hqb, hq⟩ :=
      read_part boundary hne hcr B hB v (h v (List.mem_cons_self ..)) p hb hp
    obtain ⟨ess, p', hread, hess, hp'⟩ :=
      ih (fun w hw => h w (List.mem_cons_of_mem _ hw)) q hqb (Or.inl hq)
    refine ⟨es :: ess, p', ?_, List.Forall₂.cons hes hess, fun _ => ?_⟩
    · rw [List.flatMap_cons, read_append p q _ _ _ hpart, hread]
      rfl
    · cases parts with
      | cons w parts => exact hp' (by simp)
      | nil =>
        simp only [List.flatMap_nil, read, scan, Option.some.injEq, Prod.mk.injEq] at hread
        rw [← hread.2]
        exact hq

/-- **The whole body**, with anything behind it. -/
theorem log_encodeHeaded (B epilogue : Bytes) (hB : LegalBoundary B) (parts : List HeadedPart)
    (hne : parts ≠ []) (h : ∀ v ∈ parts, v.Legal B) :
    ∃ ess p, (multipartParserInit (bytes "--" ++ B)).log (encodeHeaded B parts ++ epilogue) =
        some (ess.flatten ++ [bodyEnd], p) ∧ List.Forall₂ HeadedPart.Events parts ess := by
  have hd := hB.isDelimiter
  obtain ⟨p, hinit⟩ : ∃ p, multipartParserInit (bytes "--" ++ B) = p := ⟨_, rfl⟩
  have hinit' := hinit
  rw [multipartParserInit_eq _ hd.2.1] at hinit'
  rw [hinit]
  obtain ⟨p₁, hstart, hp₁⟩ := read_start (bytes "--" ++ B) hd.1 p (by rw [← hinit'])
    (by rw [← hinit'])
  have hb₁ : p₁.multipartBoundary = bytes "--" ++ B :=
    (boundary_read p p₁ _ _ hstart).trans (by rw [← hinit'])
  obtain ⟨ess, p₂, hparts, hess, hp₂⟩ :=
    read_parts (bytes "--" ++ B) hd.1 hd.2.2 B rfl parts h p₁ hb₁ (Or.inr hp₁)
  obtain ⟨p₃, hclose, hp₃⟩ := read_close p₂ (hp₂ hne)
  have hread : p.read (encodeHeaded B parts ++ epilogue) = some (ess.flatten ++ [bodyEnd], p₃) := by
    rw [encodeHeaded, List.append_assoc, List.append_assoc, read_append p p₁ _ _ _ hstart,
      read_append p₁ p₂ _ _ _ hparts, read_append p₂ p₃ _ _ _ hclose, read_epilogue epilogue p₃ hp₃]
    simp
  refine ⟨ess, p₃, ?_, hess⟩
  simp [log, hread, flush, hp₃]

end MultipartParser

end Ehttp
