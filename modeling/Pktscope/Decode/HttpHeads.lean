import Mathlib.Data.List.Induction
import Pktscope.Library.LossyText
import Pktscope.Decode.Http

/-! # HTTP/1 heads as they are written

A start line and header fields, each on a line of its own, and an empty line behind
them. The decoder gives back what was written, whatever bytes follow.
-/

namespace Pktscope

open Library Parse

/-- Text without line ends. -/
def OneLine (cs : List Char) : Prop := '\r' ∉ cs ∧ '\n' ∉ cs

/-- A known method, a target without spaces and a version. -/
structure RequestLine where
  method : String
  uri : List Char
  version : List Char
  method_known : method ∈ httpMethods
  uri_ne_nil : uri ≠ []
  uri_no_space : ' ' ∉ uri
  version_http : "HTTP/".toList <+: version
  uri_line : OneLine uri
  version_line : OneLine version

/-- A version, a code of decimal digits and, behind a space, a reason. -/
structure StatusLine where
  version : List Char
  digits : List Char
  code : UInt16
  reason : Option (List Char)
  version_no_space : ' ' ∉ version
  code_digits : parseNat digits = some code.toNat
  version_line : OneLine version
  reason_line : ∀ r ∈ reason, OneLine r

inductive StartLine where
  | request (line : RequestLine)
  | status (line : StatusLine)

/-- A name, the white space behind its colon, and a value that neither starts nor ends with white
space. -/
structure HttpField where
  name : List Char
  gap : List Char
  value : List Char
  name_ne_nil : name ≠ []
  name_plain : ∀ c ∈ name, c ≠ ':' ∧ isWhite c = false
  gap_white : ∀ c ∈ gap, isWhite c = true
  value_head : ∀ c ∈ value.head?, isWhite c = false
  value_last : ∀ c ∈ value.getLast?, isWhite c = false
  gap_line : OneLine gap
  value_line : OneLine value

structure HttpHead where
  start : StartLine
  fields : List HttpField

section Written

def RequestLine.text (l : RequestLine) : List Char :=
  l.method.toList ++ ' ' :: (l.uri ++ ' ' :: l.version)

def StatusLine.text (l : StatusLine) : List Char :=
  "HTTP/".toList ++ (l.version ++ ' ' :: (l.digits ++ l.reason.elim [] (' ' :: ·)))

def StartLine.text : StartLine → List Char
  | request l => l.text
  | status l => l.text

def HttpField.text (f : HttpField) : List Char := f.name ++ ':' :: (f.gap ++ f.value)

/-- The lines of a head without the empty one. -/
def HttpHead.lines (h : HttpHead) : List (List Char) := h.start.text :: h.fields.map HttpField.text

def withCrlf (lines : List (List Char)) : List Char := lines.flatMap fun l => l ++ ['\r', '\n']

/-- The head as it is sent, with the empty line behind it. -/
def HttpHead.encode (h : HttpHead) : List UInt8 :=
  utf8Bytes (String.ofList (withCrlf h.lines)) ++ [0x0d, 0x0a]

end Written

section Said

/-- Whether a field has a name, in any case. -/
def HttpField.isNamed (name : String) (f : HttpField) : Bool :=
  String.ofList (asciiLower f.name) == name

/-- The value of the last field of a name. -/
def lastValue (name : String) (fields : List HttpField) : Option (List Char) :=
  ((fields.filter fun f => f.isNamed name).getLast?).map HttpField.value

/-- What the start line says. -/
def StartLine.info (stop : ℕ) : StartLine → HttpInfo
  | request l => { HttpInfo.empty stop with
      isRequest := true
      method := some l.method
      uri := some (String.ofList l.uri)
      version := some (String.ofList l.version) }
  | status l => { HttpInfo.empty stop with
      version := some (String.ofList ("HTTP/".toList ++ l.version))
      statusCode := some l.code }

/-- What a head says. -/
def HttpHead.info (h : HttpHead) : HttpInfo :=
  { h.start.info (utf8Bytes (String.ofList (withCrlf h.lines))).length with
    headers := h.fields.map fun f => (String.ofList f.name, String.ofList f.value)
    host := (lastValue "host" h.fields).map String.ofList
    contentLength := (lastValue "content-length" h.fields).bind (parseUnsigned (2 ^ 64))
    chunked := h.fields.any fun f =>
      f.isNamed "transfer-encoding" && asciiLower f.value == "chunked".toList }

end Said

section Search

theorem utf8Bytes_crlf : utf8Bytes "\r\n\r\n" = [0x0d, 0x0a, 0x0d, 0x0a] := by decide

theorem not_mem_flatMap_utf8 {c : Char} (hc : c.toNat < 0x80) {cs : List Char} (h : c ∉ cs) :
    UInt8.ofNat c.toNat ∉ cs.flatMap String.utf8EncodeChar := by
  intro hm
  obtain ⟨d, hd, hb⟩ := List.mem_flatMap.mp hm
  rcases Nat.lt_or_ge d.toNat 0x80 with hlt | hge
  · rw [utf8EncodeChar_of_lt hlt, List.mem_singleton] at hb
    have hnat := congrArg UInt8.toNat hb
    rw [toNat_ofNat_byte (by omega), toNat_ofNat_byte (by omega)] at hnat
    rw [Char.toNat_inj.mp hnat] at h
    exact h hd
  · have hle := le_of_mem_utf8EncodeChar hge hb
    rw [toNat_ofNat_byte (by omega)] at hle
    omega

/-- The bytes that end a head. -/
abbrev blankLine : List UInt8 := [0x0d, 0x0a, 0x0d, 0x0a]

variable {b : UInt8} {line rest : List UInt8}

theorem findSubslice_cons_of_not_head (h : ¬blankLine <+: b :: rest) :
    findSubslice blankLine (b :: rest) = (findSubslice blankLine rest).map (· + 1) := by
  rw [findSubslice, if_neg]
  rwa [List.isPrefixOf_iff_prefix]

theorem findSubslice_cons_of_ne (hb : b ≠ 0x0d) (rest : List UInt8) :
    findSubslice blankLine (b :: rest) = (findSubslice blankLine rest).map (· + 1) := by
  apply findSubslice_cons_of_not_head
  intro h
  exact hb (List.cons_prefix_cons.mp h).1.symm

theorem findSubslice_line (h : 0x0d ∉ line) (rest : List UInt8) :
    findSubslice blankLine (line ++ rest) =
      (findSubslice blankLine rest).map (· + line.length) := by
  induction line with
  | nil => simp
  | cons b line ih =>
    have hb : b ≠ 0x0d := fun he => h (he ▸ List.mem_cons_self)
    rw [List.cons_append, findSubslice_cons_of_ne hb, ih fun hm => h (List.mem_cons_of_mem b hm),
      Option.map_map]
    rfl

theorem findSubslice_crlf (hb : b ≠ 0x0d) (rest : List UInt8) :
    findSubslice blankLine (0x0d :: 0x0a :: b :: rest) =
      (findSubslice blankLine (b :: rest)).map (· + 2) := by
  have hfirst : ¬blankLine <+: 0x0d :: 0x0a :: b :: rest := by
    intro h
    have htail := (List.cons_prefix_cons.mp (List.cons_prefix_cons.mp h).2).2
    exact hb (List.cons_prefix_cons.mp htail).1.symm
  rw [findSubslice_cons_of_not_head hfirst, findSubslice_cons_of_ne (by decide), Option.map_map]
  rfl

/-- The empty line behind some lines is the first one. -/
theorem findSubslice_lines {lines : List (List UInt8)} (hne : lines ≠ [])
    (h : ∀ l ∈ lines, l ≠ [] ∧ 0x0d ∉ l) (body : List UInt8) :
    ∃ n, findSubslice blankLine
        ((lines.flatMap fun l => l ++ [0x0d, 0x0a]) ++ 0x0d :: 0x0a :: body) = some n ∧
      n + 2 = (lines.flatMap fun l => l ++ [0x0d, 0x0a]).length := by
  induction lines with
  | nil => exact absurd rfl hne
  | cons l lines ih =>
    have hl := (h l List.mem_cons_self).2
    have hflat : ((l :: lines).flatMap fun l => l ++ [0x0d, 0x0a]) ++ 0x0d :: 0x0a :: body =
        l ++ 0x0d :: 0x0a :: ((lines.flatMap fun l => l ++ [0x0d, 0x0a]) ++
          0x0d :: 0x0a :: body) := by
      simp
    rw [hflat, findSubslice_line hl]
    cases lines with
    | nil =>
      have hend : findSubslice blankLine (0x0d :: 0x0a :: 0x0d :: 0x0a :: body) = some 0 := by
        rw [findSubslice, if_pos]
        exact List.isPrefixOf_iff_prefix.mpr ⟨body, rfl⟩
      refine ⟨l.length, ?_, by simp⟩
      rw [List.flatMap_nil, List.nil_append, hend, Option.map_some, Nat.zero_add]
    | cons l' lines =>
      obtain ⟨n, hn, hlen⟩ := ih (List.cons_ne_nil _ _) fun l hl => h l (List.mem_cons_of_mem _ hl)
      obtain ⟨hne', hcr⟩ := h l' (List.mem_cons_of_mem _ List.mem_cons_self)
      obtain ⟨b, l'', rfl⟩ := List.exists_cons_of_ne_nil hne'
      have hb : b ≠ 0x0d := fun he => hcr (he ▸ List.mem_cons_self)
      rw [List.flatMap_cons, List.cons_append, List.cons_append, List.cons_append] at hn ⊢
      refine ⟨n + 2 + l.length, ?_, ?_⟩
      · rw [findSubslice_crlf hb, hn]
        rfl
      · rw [List.flatMap_cons, List.length_append, ← hlen]
        simp only [List.length_append, List.length_cons, List.length_nil]
        omega

end Search

section Lines

theorem splitCrlf_append {line : List Char} (h : '\r' ∉ line) (rest : List Char) :
    splitCrlf (line ++ '\r' :: '\n' :: rest) = line :: splitCrlf rest := by
  induction line with
  | nil => rfl
  | cons c line ih =>
    have hc : c ≠ '\r' := fun he => h (he ▸ List.mem_cons_self)
    have hsplit := ih fun hm => h (List.mem_cons_of_mem c hm)
    rw [List.cons_append, splitCrlf.eq_3 _ _ fun _ he _ => hc he, hsplit]

theorem splitCrlf_withCrlf {lines : List (List Char)} (h : ∀ l ∈ lines, '\r' ∉ l) :
    splitCrlf (withCrlf lines) = lines ++ [[]] := by
  induction lines with
  | nil => rfl
  | cons l lines ih =>
    have hflat : withCrlf (l :: lines) = l ++ '\r' :: '\n' :: withCrlf lines := by
      simp [withCrlf]
    rw [hflat, splitCrlf_append (h l List.mem_cons_self),
      ih fun l' hl => h l' (List.mem_cons_of_mem l hl), List.cons_append]

theorem splitOnce_append {sep : Char} {front : List Char} (h : sep ∉ front) (rest : List Char) :
    splitOnce sep (front ++ sep :: rest) = (front, some rest) := by
  induction front with
  | nil => exact if_pos rfl
  | cons c front ih =>
    have hc : c ≠ sep := fun he => h (he ▸ List.mem_cons_self)
    rw [List.cons_append, splitOnce, if_neg hc, ih fun hm => h (List.mem_cons_of_mem c hm)]

theorem splitOnce_of_not_mem {sep : Char} {cs : List Char} (h : sep ∉ cs) :
    splitOnce sep cs = (cs, none) := by
  induction cs with
  | nil => rfl
  | cons c cs ih =>
    have hc : c ≠ sep := fun he => h (he ▸ List.mem_cons_self)
    rw [splitOnce, if_neg hc, ih fun hm => h (List.mem_cons_of_mem c hm)]

theorem dropWhile_eq_self {cs : List Char} (h : ∀ c ∈ cs.head?, isWhite c = false) :
    cs.dropWhile isWhite = cs := by
  cases cs with
  | nil => rfl
  | cons c cs => rw [List.dropWhile_cons, h c rfl, if_neg (by decide)]

theorem trim_append {gap cs : List Char} (hgap : ∀ c ∈ gap, isWhite c = true)
    (hhead : ∀ c ∈ cs.head?, isWhite c = false) (hlast : ∀ c ∈ cs.getLast?, isWhite c = false) :
    trim (gap ++ cs) = cs := by
  have hfront : (gap ++ cs).dropWhile isWhite = cs := by
    induction gap with
    | nil => exact dropWhile_eq_self hhead
    | cons c gap ih =>
      rw [List.cons_append, List.dropWhile_cons, hgap c List.mem_cons_self, if_pos rfl,
        ih fun d hd => hgap d (List.mem_cons_of_mem c hd)]
  have hback : cs.reverse.dropWhile isWhite = cs.reverse := by
    apply dropWhile_eq_self
    rwa [List.head?_reverse]
  rw [trim, hfront, hback, List.reverse_reverse]

theorem trim_name (f : HttpField) : trim f.name = f.name := by
  have htrim : trim ([] ++ f.name) = f.name :=
    trim_append nofun (fun c hc => (f.name_plain c (List.mem_of_mem_head? hc)).2)
      fun c hc => (f.name_plain c (List.mem_of_getLast? hc)).2
  exact htrim

theorem trim_value (f : HttpField) : trim (f.gap ++ f.value) = f.value :=
  trim_append f.gap_white f.value_head f.value_last

end Lines

section Start

theorem firstLine_request (l : RequestLine) (stop : ℕ) :
    firstLine (.empty stop) l.text = some ((StartLine.request l).info stop) := by
  have hspace : ' ' ∉ l.method.toList := by
    have hall : ∀ m ∈ httpMethods, ' ' ∉ m.toList := by decide
    exact hall _ l.method_known
  have hhttp : "HTTP/".toList.isPrefixOf l.text = false := by
    have hall : ∀ m ∈ httpMethods, ∀ rest : List Char,
        "HTTP/".toList.isPrefixOf (m.toList ++ ' ' :: rest) = false := by
      unfold httpMethods
      simp only [List.mem_cons, List.not_mem_nil, or_false]
      rintro m (rfl | rfl | rfl | rfl | rfl | rfl | rfl | rfl | rfl) rest
      all_goals rfl
    exact hall _ l.method_known _
  have hmethod : isHttpMethod l.method.toList = true := by
    rw [isHttpMethod, String.ofList_toList]
    exact List.contains_iff_mem.mpr l.method_known
  have hversion : "HTTP/".toList.isPrefixOf l.version = true :=
    List.isPrefixOf_iff_prefix.mpr l.version_http
  unfold firstLine
  dsimp only
  rw [hhttp, if_neg (by decide)]
  unfold RequestLine.text
  rw [splitOnce_append hspace]
  dsimp only
  rw [hmethod, if_pos rfl]
  simp only [Option.bind_eq_bind, Option.bind_some, splitOnce_append l.uri_no_space, hversion,
    if_pos]
  rw [String.ofList_toList]
  rfl

theorem StatusLine.not_mem_digits (l : StatusLine) {c : Char} (hc : c.isDigit = false) :
    c ∉ l.digits := by
  intro hm
  have hcode := l.code_digits
  unfold parseNat at hcode
  split_ifs at hcode with hall
  rw [List.all_eq_true.mp hall.2 c hm] at hc
  cases hc

theorem firstLine_status (l : StatusLine) (stop : ℕ) :
    firstLine (.empty stop) l.text = some ((StartLine.status l).info stop) := by
  have hhttp : "HTTP/".toList.isPrefixOf l.text = true :=
    List.isPrefixOf_iff_prefix.mpr ⟨_, rfl⟩
  have hspace : ' ' ∉ l.digits := l.not_mem_digits rfl
  have hcode : (splitOnce ' ' (l.digits ++ l.reason.elim [] (' ' :: ·))).1 = l.digits := by
    cases l.reason with
    | none =>
      rw [Option.elim_none, List.append_nil, splitOnce_of_not_mem hspace]
    | some r => rw [Option.elim_some, splitOnce_append hspace]
  have hparse : parseUnsigned (2 ^ 16) l.digits = some l.code.toNat := by
    have hplus : ∀ rest, l.digits ≠ '+' :: rest := by
      intro rest he
      exact l.not_mem_digits (c := '+') rfl (he ▸ List.mem_cons_self)
    unfold parseUnsigned
    dsimp only
    split
    · rename_i rest he
      exact absurd he (hplus rest)
    · have hlt := l.code.toNat_lt
      rw [l.code_digits, Option.filter_some, if_pos (by simpa using hlt)]
  have hversion : splitOnce ' ' (l.text.drop "HTTP/".toList.length) =
      (l.version, some (l.digits ++ l.reason.elim [] (' ' :: ·))) := by
    change splitOnce ' ' (("HTTP/".toList ++ (l.version ++ ' ' :: _)).drop _) = _
    rw [List.drop_left, splitOnce_append l.version_no_space]
  unfold firstLine
  dsimp only
  rw [if_pos hhttp, hversion]
  simp only [Option.bind_eq_bind, Option.bind_some, hcode, hparse]
  rw [UInt16.ofNat_toNat]
  rfl

theorem firstLine_text (start : StartLine) (stop : ℕ) :
    firstLine (.empty stop) start.text = some (start.info stop) := by
  cases start with
  | request l => exact firstLine_request l stop
  | status l => exact firstLine_status l stop

end Start

section Fields

variable {f : HttpField}

theorem headerLine_text (info : HttpInfo) (f : HttpField) :
    headerLine info f.text =
      { info with
        headers := info.headers ++ [(String.ofList f.name, String.ofList f.value)]
        host := if f.isNamed "host" then some (String.ofList f.value) else info.host
        contentLength := if f.isNamed "content-length" then parseUnsigned (2 ^ 64) f.value
          else info.contentLength
        chunked := info.chunked ||
          (f.isNamed "transfer-encoding" && asciiLower f.value == "chunked".toList) } := by
  have hcolon : ':' ∉ f.name := fun hm => (f.name_plain ':' hm).1 rfl
  unfold headerLine HttpField.text
  rw [splitOnce_append hcolon]
  dsimp only
  rw [trim_name, trim_value]
  unfold HttpField.isNamed
  generalize String.ofList (asciiLower f.name) = name
  generalize "chunked".toList = kind
  by_cases hhost : name = "host"
  · subst hhost
    simp
  by_cases hlength : name = "content-length"
  · subst hlength
    simp
  by_cases hcoding : name = "transfer-encoding"
  · subst hcoding
    by_cases hchunked : asciiLower f.value = kind
    · simp [hchunked]
    · simp [hchunked]
  · simp [hhost, hlength, hcoding]

theorem lastValue_concat (name : String) (fields : List HttpField) (f : HttpField) :
    lastValue name (fields ++ [f]) =
      if f.isNamed name then some f.value else lastValue name fields := by
  unfold lastValue
  rw [List.filter_append]
  by_cases hf : f.isNamed name = true
  · rw [if_pos hf, List.filter_cons_of_pos hf, List.filter_nil, List.getLast?_concat, Option.map_some]
  · rw [if_neg hf, List.filter_cons_of_neg hf, List.filter_nil, List.append_nil]

/-- What the header lines leave. -/
theorem foldl_headerLine (start : StartLine) (stop : ℕ) (fields : List HttpField) :
    (fields.map HttpField.text).foldl headerLine (start.info stop) =
      { start.info stop with
        headers := fields.map fun f => (String.ofList f.name, String.ofList f.value)
        host := (lastValue "host" fields).map String.ofList
        contentLength := (lastValue "content-length" fields).bind (parseUnsigned (2 ^ 64))
        chunked := fields.any fun f =>
          f.isNamed "transfer-encoding" && asciiLower f.value == "chunked".toList } := by
  induction fields using List.reverseRecOn with
  | nil => cases start <;> rfl
  | append_singleton fields f ih =>
    rw [List.map_append, List.foldl_append, ih, List.map_singleton, List.foldl_cons, List.foldl_nil,
      headerLine_text, lastValue_concat, lastValue_concat]
    simp only [List.map_append, List.map_singleton, List.any_append, List.any_cons, List.any_nil,
      Bool.or_false]
    congr 1
    · split_ifs <;> rfl
    · split_ifs <;> rfl

end Fields

section Head

theorem HttpField.text_ne_nil (f : HttpField) : f.text ≠ [] := by
  unfold HttpField.text
  simp

theorem HttpField.oneLine (f : HttpField) : OneLine f.text := by
  have hname : OneLine f.name := by
    constructor
    · intro hm
      exact absurd (f.name_plain _ hm).2 (by decide)
    · intro hm
      exact absurd (f.name_plain _ hm).2 (by decide)
  unfold OneLine HttpField.text
  have hgap := f.gap_line
  have hvalue := f.value_line
  unfold OneLine at hname hgap hvalue
  simp [hname, hgap, hvalue]

theorem RequestLine.oneLine (l : RequestLine) : OneLine l.text := by
  have hmethod : OneLine l.method.toList := by
    have hall : ∀ m ∈ httpMethods, '\r' ∉ m.toList ∧ '\n' ∉ m.toList := by decide
    exact hall _ l.method_known
  have huri := l.uri_line
  have hversion := l.version_line
  unfold OneLine at hmethod huri hversion
  unfold OneLine RequestLine.text
  simp [hmethod, huri, hversion]

theorem StatusLine.oneLine (l : StatusLine) : OneLine l.text := by
  have hcr : '\r' ∉ l.digits := l.not_mem_digits rfl
  have hlf : '\n' ∉ l.digits := l.not_mem_digits rfl
  have hversion := l.version_line
  have hreason : OneLine (l.reason.elim [] (' ' :: ·)) := by
    have hline := l.reason_line
    unfold OneLine at hline ⊢
    cases hr : l.reason with
    | none => simp
    | some r => simpa using hline r hr
  unfold OneLine at hversion hreason
  unfold OneLine StatusLine.text
  simp [hcr, hlf, hversion, hreason]

theorem StartLine.oneLine (start : StartLine) : OneLine start.text := by
  cases start with
  | request l => exact l.oneLine
  | status l => exact l.oneLine

theorem StartLine.text_ne_nil (start : StartLine) : start.text ≠ [] := by
  cases start with
  | request l =>
    unfold StartLine.text RequestLine.text
    simp
  | status l =>
    unfold StartLine.text StatusLine.text
    simp

variable (h : HttpHead)

theorem HttpHead.mem_lines {l : List Char} (hl : l ∈ h.lines) : l ≠ [] ∧ OneLine l := by
  rcases List.mem_cons.mp hl with rfl | hl
  · exact ⟨h.start.text_ne_nil, h.start.oneLine⟩
  · obtain ⟨f, -, rfl⟩ := List.mem_map.mp hl
    exact ⟨f.text_ne_nil, f.oneLine⟩

theorem utf8Bytes_withCrlf (lines : List (List Char)) :
    utf8Bytes (String.ofList (withCrlf lines)) =
      (lines.map fun l => l.flatMap String.utf8EncodeChar).flatMap fun l => l ++ [0x0d, 0x0a] := by
  have hcrlf : ['\r', '\n'].flatMap String.utf8EncodeChar = [0x0d, 0x0a] := by decide
  rw [utf8Bytes, String.toList_ofList, withCrlf]
  induction lines with
  | nil => rfl
  | cons l lines ih =>
    rw [List.flatMap_cons, List.flatMap_append, ih, List.flatMap_append, hcrlf, List.map_cons,
      List.flatMap_cons]

/-- The head ends where it was written to end, whatever follows. -/
theorem headEnd_encode {body : List UInt8} (hs : (h.encode ++ body).length < maxBytes) :
    headEnd (h.encode ++ body) = ok (utf8Bytes (String.ofList (withCrlf h.lines))).length := by
  have hmax : maxBytes = 2 ^ 63 := rfl
  have hlines : ∀ l ∈ h.lines.map fun l => l.flatMap String.utf8EncodeChar,
      l ≠ [] ∧ 0x0d ∉ l := by
    intro l hl
    obtain ⟨text, htext, rfl⟩ := List.mem_map.mp hl
    obtain ⟨hne, hcr, -⟩ := h.mem_lines htext
    constructor
    · obtain ⟨c, rest, rfl⟩ := List.exists_cons_of_ne_nil hne
      rw [List.flatMap_cons]
      exact fun hnil => String.utf8EncodeChar_ne_nil (List.append_eq_nil_iff.mp hnil).1
    · exact not_mem_flatMap_utf8 (c := '\r') (by decide) hcr
  have hne : (h.lines.map fun l => l.flatMap String.utf8EncodeChar) ≠ [] := by
    unfold HttpHead.lines
    simp
  obtain ⟨n, hn, hlen⟩ := findSubslice_lines hne hlines body
  rw [← utf8Bytes_withCrlf] at hn hlen
  have hbytes : h.encode ++ body =
      utf8Bytes (String.ofList (withCrlf h.lines)) ++ 0x0d :: 0x0a :: body := by
    unfold HttpHead.encode
    simp
  rw [hbytes] at hs ⊢
  rw [List.length_append] at hs
  rw [headEnd, utf8Bytes_crlf, hn]
  dsimp only
  rw [addUsize, if_pos (by omega), hlen]

/-- A head is read as it was written, and what follows it does not matter. -/
theorem tryDecodeHttp_encode {body : List UInt8} (hs : (h.encode ++ body).length < maxBytes) :
    tryDecodeHttp (h.encode ++ body) = ok h.info := by
  have hslice : sliceAt (h.encode ++ body) 0 (utf8Bytes (String.ofList (withCrlf h.lines))).length =
      ok (utf8Bytes (String.ofList (withCrlf h.lines))) := by
    unfold HttpHead.encode
    rw [sliceAt, if_pos (by simp), slice, List.drop_zero, List.append_assoc, List.take_left]
  have hsplit : splitCrlf (withCrlf h.lines) = h.lines ++ [[]] :=
    splitCrlf_withCrlf fun l hl => (h.mem_lines hl).2.1
  have htake : ((h.fields.map HttpField.text ++ [[]]).takeWhile fun line => !line.isEmpty) =
      h.fields.map HttpField.text := by
    have hall : ∀ l ∈ h.fields.map HttpField.text, (!l.isEmpty) = true := by
      intro l hl
      obtain ⟨f, -, rfl⟩ := List.mem_map.mp hl
      simpa using f.text_ne_nil
    rw [List.takeWhile_append_of_pos hall]
    exact List.append_nil _
  unfold tryDecodeHttp
  rw [headEnd_encode h hs, ok_bind, hslice, ok_bind, fromUtf8_utf8Bytes, ofOption, ok_bind,
    String.toList_ofList, hsplit]
  unfold HttpHead.lines
  rw [List.cons_append]
  dsimp only
  rw [if_neg (by simpa using h.start.text_ne_nil), firstLine_text, ofOption, ok_bind, headerLines,
    htake, foldl_headerLine]
  rfl

end Head

section Example

def getIndex : RequestLine where
  method := "GET"
  uri := "/index.html".toList
  version := "HTTP/1.1".toList
  method_known := by decide
  uri_ne_nil := by decide
  uri_no_space := by decide
  version_http := by decide
  uri_line := ⟨by decide, by decide⟩
  version_line := ⟨by decide, by decide⟩

def chunkedField : HttpField where
  name := "Transfer-Encoding".toList
  gap := [' ']
  value := "Chunked".toList
  name_ne_nil := by decide
  name_plain c hc := by
    have hall : ("Transfer-Encoding".toList.all fun c => c != ':' && !isWhite c) = true := by decide
    simpa using List.all_eq_true.mp hall c hc
  gap_white c hc := by
    rw [List.mem_singleton.mp hc]
    decide
  value_head c hc := by
    obtain rfl : 'C' = c := Option.some.inj hc
    decide
  value_last c hc := by
    obtain rfl : 'd' = c := Option.some.inj hc
    decide
  gap_line := ⟨by decide, by decide⟩
  value_line := ⟨by decide, by decide⟩

theorem tryDecodeHttp_encode_binary :
    tryDecodeHttp ((HttpHead.mk (.request getIndex) [chunkedField]).encode ++
        [0xff, 0x0d, 0x0a, 0x0d, 0x0a, 0x00]) =
      ok (HttpHead.mk (.request getIndex) [chunkedField]).info := by
  have hlen : ((HttpHead.mk (.request getIndex) [chunkedField]).encode ++
      [0xff, 0x0d, 0x0a, 0x0d, 0x0a, 0x00]).length = 62 := by decide +kernel
  have hmax : maxBytes = 2 ^ 63 := rfl
  exact tryDecodeHttp_encode _ (by omega)

end Example

end Pktscope
