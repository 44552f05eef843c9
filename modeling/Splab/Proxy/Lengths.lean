import Splab.Proxy.Streams

namespace Splab.Proxy
open CString

/-- The name of the field is Content-Length, in any letter case. -/
def IsLength (h : List UInt8) : Prop := (h.take 14).map tolower = ascii "content-length" ∧ h[14]? = some 58

instance : DecidablePred IsLength := fun _ => inferInstanceAs (Decidable (_ ∧ _))

/-- The value of such a field: blanks and a decimal number behind the colon. -/
def lengthValue (h : List UInt8) : Option Nat :=
  let number := (h.drop 15).dropWhile (· = 32)
  if IsLength h ∧ number ≠ [] ∧ ∀ b ∈ number, isdigit b = true then some (digitsValue number) else none

/-- The fields of a header in which at most one is named Content-Length, and that one has a value for an `int`. -/
structure LengthBlock (fields : List (List UInt8)) : Prop where
  header : ∀ h ∈ fields, HeaderField h
  plain : ∀ h ∈ fields, 0 ∉ h
  single : (fields.filter fun h => IsLength h).length ≤ 1
  spelled : ∀ h ∈ fields, IsLength h → ∃ n, lengthValue h = some n ∧ n < 2 ^ 31

def expectedLength (fields : List (List UInt8)) : Int := (fields.findSome? lengthValue).elim 0 Nat.cast

/-- `relay_header` finds the length of the header, whatever was in its buffer before. -/
def ReadsLength (fields : List (List UInt8)) : Prop :=
  ∀ (s : Conn) (source target : Side) (rest : List (Option UInt8)), s.buf.length = maxLine →
    s.input source = (headerBlock fields).map some ++ rest → .failed ∉ (s.output target).writes →
    ∃ sum s', relayHeader source target s = .ok (sum, expectedLength fields) s'

/-- What the lines leave in the buffer one after the other, each over the start of those before it. -/
def bufferViews : List UInt8 → List (List UInt8) → List (List UInt8)
  | _, [] => []
  | seen, h :: fields => overwrite seen (h ++ crlf) :: bufferViews (overwrite seen (h ++ crlf)) fields

/-- The line at the start of the buffer begins with Content-Length, in any letter case. -/
def named (view : List UInt8) : Bool := (view.take 14).map tolower = ascii "content-length"

/-- The number behind the first blank, if both are there before a zero byte. -/
def numberIn (view : List UInt8) : Option Int := (strchr view 32).join.bind fun i => atoi (view.drop (i + 1))

/-- What the lines leave in the buffer at last. -/
def leftBy (seen : List UInt8) (fields : List (List UInt8)) : List UInt8 :=
  fields.foldl (fun seen h => overwrite seen (h ++ crlf)) seen

/-- How a header shows its length. -/
inductive ShowsLength (fields : List (List UInt8)) : Prop
  /-- no line begins with Content-Length -/
  | absent (other : ∀ h ∈ fields, named h = false)
  /-- the last line that does is the field itself, which has a blank behind its colon -/
  | field {before after : List (List UInt8)} {h : List UInt8} (split : fields = before ++ h :: after)
      (length : IsLength h) (blank : 32 ∈ h) (last : ∀ g ∈ after, named g = false)
  /-- it is another one, or has no blank, and by chance the next number in the buffer is the length too -/
  | chance {before after : List (List UInt8)} {h : List UInt8} (split : fields = before ++ h :: after)
      (begins : named h = true) (last : ∀ g ∈ after, named g = false) (other : ¬(IsLength h ∧ 32 ∈ h))
      (same : numberIn (overwrite (leftBy [] before) (h ++ crlf)) = some (expectedLength fields))

section Scan
variable {view t seen h name : List UInt8}

theorem named_iff : named view = true ↔ strncasecmp view (ascii "Content-Length") = some true := by
  have folded : (ascii "Content-Length").map tolower = ascii "content-length" := by
    rw [ascii_contentLength, ascii_contentLength_lower]
    decide
  have size : (ascii "Content-Length").length = 14 := rfl
  rw [named, decide_eq_true_iff, strncasecmp, agrees_eq_true, folded, size]
  refine (and_iff_right_of_imp fun same => ?_).symm
  have length := congrArg List.length same
  rw [List.length_map, List.length_take, ascii_contentLength_lower] at length
  simp only [List.length_cons, List.length_nil] at length
  omega

theorem crlf_ends : 13 ∈ overwrite seen (h ++ crlf) :=
  List.mem_append_left _ (List.mem_append_right _ (by decide))

/-- Only the field counts, not what is left behind it. -/
theorem named_overwrite : named (overwrite seen (h ++ crlf)) = named h := by
  unfold named overwrite
  rw [List.append_assoc, List.take_append]
  by_cases short : h.length < 14
  · -- the CR is in the way
    have other : ∀ rest, (h.take 14 ++ (crlf ++ rest).take (14 - h.length)).map tolower ≠ ascii "content-length" := by
      intro rest same
      obtain ⟨k, room⟩ : ∃ k, 14 - h.length = k + 1 := ⟨14 - h.length - 1, by omega⟩
      have cr : (13 : UInt8) ∈ ascii "content-length" := by
        rw [← same, room]
        simp [crlf, tolower]
      exact absurd cr (by rw [ascii_contentLength_lower]; decide)
    have brief : (h.take 14).map tolower ≠ ascii "content-length" := by
      intro same
      have length := congrArg List.length same
      rw [List.length_map, List.length_take, ascii_contentLength_lower] at length
      simp only [List.length_cons, List.length_nil] at length
      omega
    rw [decide_eq_false (other _), decide_eq_false brief]
  · rw [Nat.sub_eq_zero_of_le (Nat.le_of_not_lt short), List.take_zero, List.append_nil]

/-- The line of a field with another name has no part in the length. -/
theorem headerLength_other (ended : 13 ∈ view) (other : named view = false) : headerLength (view ++ t) = .ok none := by
  have decided : strncasecmp view (ascii "Content-Length") ≠ none := by
    rw [ascii_contentLength]
    exact agrees_ends ended (by decide +kernel)
  obtain ⟨same, eq⟩ := Option.ne_none_iff_exists'.mp decided
  cases same with
  | true => exact absurd (named_iff.mpr eq) (by simp [other])
  | false =>
    have whole : strncasecmp (view ++ t) (ascii "Content-Length") = some false := agrees_append eq
    rw [headerLength, whole]
    rfl

/-- The scans behind the name. -/
theorem headerLength_named (yes : named view = true) : headerLength (view ++ t) =
    found (strchr (view ++ t) 32) >>= fun blank => scanned (atoi ((view ++ t).drop (blank + 1))) >>= fun n =>
      .ok (some n) := by
  have whole : strncasecmp (view ++ t) (ascii "Content-Length") = some true := agrees_append (named_iff.mp yes)
  rw [headerLength, whole]
  rfl

theorem headerLength_number {n : Int} (yes : named view = true) (number : numberIn view = some n) :
    headerLength (view ++ t) = .ok (some n) := by
  obtain ⟨i, blank, number⟩ := Option.bind_eq_some_iff.mp number
  have hit := Option.join_eq_some_iff.mp blank
  have read := headerLength_named (t := []) yes
  rw [List.append_nil, hit, found, ok_bind, number] at read
  exact (local_headerLength view t (.of_ok read)).trans read

/-- A line without a complete number crashes the thread with some bytes behind it. -/
theorem headerLength_stuck (yes : named view = true) (stuck : numberIn view = none) :
    ∃ b ≠ 10, ∀ k, ∃ fault, headerLength (view ++ List.replicate k b) = .error fault := by
  cases blank : strchr view 32 with
  | none =>
    -- zero bytes, none of which is a blank
    refine ⟨0, by decide, fun k => ?_⟩
    rw [headerLength_named yes]
    cases k with
    | zero => exact ⟨.overrun, by rw [List.replicate_zero, List.append_nil, blank]; rfl⟩
    | succ k =>
      exact ⟨.nullPtr, by rw [List.replicate_succ, strchr, find_miss (by decide) (find_eq_none.mp blank)]; rfl⟩
  | some hit =>
    cases hit with
    | none =>
      refine ⟨0, by decide, fun k => ⟨.nullPtr, ?_⟩⟩
      rw [headerLength_named yes, strchr, find_append blank]
      rfl
    | some i =>
      -- digits up to the end of the buffer
      have unended : atoi (view.drop (i + 1)) = none := by
        rwa [numberIn, blank, Option.join_some, Option.bind_some] at stuck
      obtain ⟨before, c, after, rfl, length, _, _⟩ := find_eq_some.mp blank
      have behind : ∀ t, (before ++ c :: after ++ t).drop (i + 1) = after ++ t := fun t => by
        rw [List.append_assoc, List.cons_append, List.append_cons]
        exact List.drop_left' (by simp [length])
      refine ⟨49, by decide, fun k => ⟨.overrun, ?_⟩⟩
      rw [headerLength_named yes, strchr, find_append blank, found, ok_bind, behind]
      have digits : ∀ b ∈ List.replicate k (49 : UInt8), isdigit b = true := fun b mem => by
        rw [List.eq_of_mem_replicate mem]
        decide
      have inside := behind []
      rw [List.append_nil, List.append_nil] at inside
      rw [inside] at unended
      rw [atoi_unended unended digits]
      rfl

/-- The number of a field with a blank behind its colon. -/
theorem numberIn_field {blanks digits : List UInt8} {c : UInt8} (folded : name.map tolower = ascii "content-length")
    (spaces : ∀ b ∈ blanks, isspace b = true) (nonempty : digits ≠ []) (all : ∀ b ∈ digits, isdigit b = true)
    (other : isdigit c = false) : numberIn (name ++ 58 :: 32 :: (blanks ++ digits ++ c :: t)) =
      some (toInt (digitsValue digits)) := by
  have plain : ∀ b ∈ name ++ [58], decide (b = 32) = false ∧ b ≠ 0 := by
    intro b mem
    rcases List.mem_append.mp mem with inName | colon
    · have lower : tolower b ∈ ascii "content-length" := by
        rw [← folded]
        exact List.mem_map_of_mem inName
      rw [ascii_contentLength_lower] at lower
      refine ⟨decide_eq_false ?_, ?_⟩
      · rintro rfl
        exact absurd lower (by decide)
      · rintro rfl
        exact absurd lower (by decide)
    · rw [List.mem_singleton.mp colon]
      decide
  have split : name ++ 58 :: 32 :: (blanks ++ digits ++ c :: t) =
      (name ++ [58]) ++ 32 :: (blanks ++ digits ++ c :: t) := by simp
  have blank : strchr ((name ++ [58]) ++ 32 :: (blanks ++ digits ++ c :: t)) 32 = some (some (name ++ [58]).length) :=
    find_hit (by decide) plain
  have value : ((name ++ [58]) ++ 32 :: (blanks ++ digits ++ c :: t)).drop ((name ++ [58]).length + 1) =
      blanks ++ digits ++ c :: t := by
    rw [List.append_cons (name ++ [58]) 32]
    exact List.drop_left' List.length_append
  rw [split, numberIn, blank, Option.join_some, Option.bind_some, value]
  exact atoi_digits spaces nonempty all other

end Scan

section Views
variable {seen tail v h : List UInt8} {content c : Int} {fields before after : List (List UInt8)}

theorem overwrite_append : overwrite (seen ++ tail) h = overwrite seen h ++ tail.drop (h.length - seen.length) := by
  rw [overwrite, overwrite, List.drop_append, List.append_assoc]

/-- The last number that the lines have set. -/
def lastNumber (content : Int) (views : List (List UInt8)) : Int :=
  (((views.filter named).getLast?).bind numberIn).getD content

theorem lastNumber_other {views : List (List UInt8)} (other : named v = false) :
    lastNumber content (v :: views) = lastNumber content views := by
  rw [lastNumber, List.filter_cons_of_neg (by simp [other]), lastNumber]

theorem lastNumber_named {views : List (List UInt8)} {n : Int} (yes : named v = true) (number : numberIn v = some n)
    (later : ∀ u ∈ views, named u = true → numberIn u ≠ none) :
    lastNumber content (v :: views) = lastNumber n views := by
  rw [lastNumber, List.filter_cons_of_pos yes, lastNumber]
  rcases List.eq_nil_or_concat' (views.filter named) with none | ⟨front, u, split⟩
  · simp [none, number]
  · have mem : u ∈ views.filter named := by simp [split]
    obtain ⟨inside, yes⟩ := List.mem_filter.mp mem
    obtain ⟨m, number⟩ := Option.ne_none_iff_exists'.mp (later u inside yes)
    simp [split, List.getLast?_cons, number]

/-- If the numbers are complete in what the lines leave in the buffer, nothing else counts. -/
theorem lengthRead_views (complete : ∀ v ∈ bufferViews seen fields, named v = true → numberIn v ≠ none)
    (tail : List UInt8) (content : Int) :
    lengthRead (seen ++ tail) content fields = .ok (lastNumber content (bufferViews seen fields)) := by
  induction fields generalizing seen tail content with
  | nil => rfl
  | cons h fields ih =>
    obtain ⟨here, later⟩ := List.forall_mem_cons.mp complete
    rw [lengthRead, overwrite_append, bufferViews]
    cases yes : named (overwrite seen (h ++ crlf)) with
    | false => rw [headerLength_other crlf_ends yes, ok_bind, ih later, lastNumber_other yes]; rfl
    | true =>
      obtain ⟨n, number⟩ := Option.ne_none_iff_exists'.mp (here yes)
      rw [headerLength_number yes number, ok_bind, ih later, lastNumber_named yes number later]
      rfl

/-- A run through all lines has come through the scan of each. -/
theorem lengthRead_ok (run : lengthRead (seen ++ tail) content fields = .ok c) (mem : v ∈ bufferViews seen fields) :
    ∃ k r, headerLength (v ++ tail.drop k) = .ok r := by
  induction fields generalizing seen tail content with
  | nil => cases mem
  | cons h fields ih =>
    obtain ⟨n, here, run⟩ := bind_ok run
    rw [overwrite_append] at here run
    rcases List.mem_cons.mp mem with rfl | later
    · exact ⟨_, n, here⟩
    · obtain ⟨k, r, scan⟩ := ih run later
      rw [List.drop_drop] at scan
      exact ⟨_, r, scan⟩

/-- So the numbers are complete if no run crashes, whatever is behind the lines. -/
theorem complete_of_lengthRead
    (runs : ∀ b : UInt8, b ≠ 10 → ∃ k c, lengthRead (seen ++ List.replicate k b) content fields = .ok c) :
    ∀ v ∈ bufferViews seen fields, named v = true → numberIn v ≠ none := by
  intro v mem yes none
  obtain ⟨b, other, crashes⟩ := headerLength_stuck yes none
  obtain ⟨k, c, run⟩ := runs b other
  obtain ⟨j, r, scan⟩ := lengthRead_ok run mem
  rw [List.drop_replicate] at scan
  obtain ⟨fault, crash⟩ := crashes (k - j)
  rw [crash] at scan
  cases scan

theorem bufferViews_split : bufferViews seen (before ++ h :: after) = bufferViews seen before ++
    overwrite (leftBy seen before) (h ++ crlf) ::
      bufferViews (overwrite (leftBy seen before) (h ++ crlf)) after := by
  induction before generalizing seen with
  | nil => rfl
  | cons g before ih =>
    rw [List.cons_append, bufferViews, ih, bufferViews]
    rfl

theorem filter_views_absent (none : ∀ g ∈ fields, named g = false) : (bufferViews seen fields).filter named = [] := by
  induction fields generalizing seen with
  | nil => rfl
  | cons g fields ih =>
    obtain ⟨here, later⟩ := List.forall_mem_cons.mp none
    rw [bufferViews, List.filter_cons_of_neg (by simp [named_overwrite, here]), ih later]

theorem lastNumber_absent (none : ∀ g ∈ fields, named g = false) :
    lastNumber content (bufferViews seen fields) = content := by
  rw [lastNumber, filter_views_absent none]
  rfl

/-- The last line that begins with Content-Length gives the number. -/
theorem lastNumber_last (begins : named h = true) (last : ∀ g ∈ after, named g = false) :
    lastNumber content (bufferViews seen (before ++ h :: after)) =
      (numberIn (overwrite (leftBy seen before) (h ++ crlf))).getD content := by
  rw [lastNumber, bufferViews_split, List.filter_append,
    List.filter_cons_of_pos (by rw [named_overwrite]; exact begins), filter_views_absent last]
  simp

theorem last_named (fields : List (List UInt8)) : (∀ h ∈ fields, named h = false) ∨
    ∃ before h after, fields = before ++ h :: after ∧ named h = true ∧ ∀ g ∈ after, named g = false := by
  induction fields with
  | nil => exact .inl (List.forall_mem_nil _)
  | cons g fields ih =>
    rcases ih with none | ⟨before, h, after, rfl, begins, last⟩
    · cases here : named g with
      | false => exact .inl (List.forall_mem_cons.mpr ⟨here, none⟩)
      | true => exact .inr ⟨[], g, fields, rfl, here, none⟩
    · exact .inr ⟨g :: before, h, after, rfl, begins, last⟩

end Views

section Lengths
variable {fields : List (List UInt8)}

/-- The length is that of every run through the lines, from every buffer. -/
theorem readsLength_iff_lengthRead (header : ∀ h ∈ fields, HeaderField h) : ReadsLength fields ↔
    ∀ buf : List UInt8, buf.length = maxLine → lengthRead buf 0 fields = .ok (expectedLength fields) := by
  constructor
  · intro reads buf size
    have stream : (bytesConn (headerBlock fields) buf).input .client = (headerBlock fields).map some ++ [] :=
      (List.append_nil _).symm
    have clean : .failed ∉ ((bytesConn (headerBlock fields) buf).output .server).writes := List.not_mem_nil
    obtain ⟨sum, s', run⟩ := reads _ .client .server [] size stream clean
    have block := relayHeader_block size header stream clean
    rw [bytesConn_buf] at block
    cases read : lengthRead buf 0 fields with
    | ok c =>
      simp only [read] at block
      obtain ⟨sum', buf', later, _, _, run'⟩ := block
      have same := run.symm.trans run'
      simp only [EStateM.Result.ok.injEq, Prod.mk.injEq] at same
      rw [same.1.2]
    | error fault =>
      simp only [read] at block
      obtain ⟨s'', part, run', _⟩ := block
      cases run.symm.trans run'
  · intro reads s source target rest size stream clean
    have block := relayHeader_block size header stream clean
    rw [reads s.buf size] at block
    obtain ⟨sum, buf, later, _, _, run⟩ := block
    exact ⟨sum, _, run⟩

theorem lengthValue_split {h : List UInt8} {n : Nat} (value : lengthValue h = some n) :
    ∃ name blanks digits, h = name ++ 58 :: (blanks ++ digits) ∧ name.map tolower = ascii "content-length" ∧
      (∀ b ∈ blanks, b = 32) ∧ digits ≠ [] ∧ (∀ b ∈ digits, isdigit b = true) ∧ digitsValue digits = n := by
  unfold lengthValue at value
  simp only at value
  split_ifs at value with form
  obtain ⟨⟨folded, colon⟩, nonempty, digits⟩ := form
  obtain ⟨inside, at14⟩ := List.getElem?_eq_some_iff.mp colon
  refine ⟨h.take 14, (h.drop 15).takeWhile (· = 32), (h.drop 15).dropWhile (· = 32), ?_, folded, ?_, nonempty, digits,
    Option.some.inj value⟩
  · rw [List.takeWhile_append_dropWhile, ← at14, List.getElem_cons_drop, List.take_append_drop]
  · exact fun b mem => by simpa using List.mem_takeWhile_imp mem

theorem isLength_of_value {h : List UInt8} {n : Nat} (value : lengthValue h = some n) : IsLength h := by
  unfold lengthValue at value
  simp only at value
  split_ifs at value with form
  exact form.1

theorem IsLength.named {h : List UInt8} (length : IsLength h) : named h = true := decide_eq_true length.1

/-- The one field of the name gives the length. -/
theorem LengthBlock.expected {h : List UInt8} (block : LengthBlock fields) (mem : h ∈ fields) (length : IsLength h) :
    ∃ n, lengthValue h = some n ∧ n < 2 ^ 31 ∧ expectedLength fields = n := by
  obtain ⟨n, value, small⟩ := block.spelled h mem length
  refine ⟨n, value, small, ?_⟩
  cases first : fields.findSome? lengthValue with
  | none => exact absurd (List.findSome?_eq_none_iff.mp first h mem) (by simp [value])
  | some m =>
    obtain ⟨g, inside, read⟩ := List.exists_of_findSome?_eq_some first
    have both : h ∈ fields.filter (IsLength ·) ∧ g ∈ fields.filter (IsLength ·) :=
      ⟨List.mem_filter.mpr ⟨mem, decide_eq_true length⟩,
        List.mem_filter.mpr ⟨inside, decide_eq_true (isLength_of_value read)⟩⟩
    obtain ⟨f, only⟩ := List.length_eq_one_iff.mp
      (Nat.le_antisymm block.single (List.length_pos_of_mem both.1))
    rw [only, List.mem_singleton, List.mem_singleton] at both
    rw [both.1, ← both.2, read] at value
    rw [expectedLength, first, value]
    rfl

/-- A field with a blank is read, whatever the buffer holds behind it. -/
theorem numberIn_spaced {h seen : List UInt8} {n : Nat} (value : lengthValue h = some n) (blank : 32 ∈ h)
    (small : n < 2 ^ 31) : numberIn (overwrite seen (h ++ crlf)) = some (n : Int) := by
  obtain ⟨name, blanks, digits, rfl, folded, spaces, nonempty, all, rfl⟩ := lengthValue_split value
  cases blanks with
  | nil =>
    -- neither the name nor the number has a blank
    rcases List.mem_append.mp blank with inName | colon
    · have lower : tolower 32 ∈ ascii "content-length" := by
        rw [← folded]
        exact List.mem_map_of_mem inName
      exact absurd lower (by rw [ascii_contentLength_lower]; decide)
    · rcases List.mem_cons.mp colon with same | inDigits
      · cases same
      · exact absurd (all 32 inDigits) (by decide)
  | cons b blanks =>
    obtain ⟨rfl, more⟩ := List.forall_mem_cons.mp spaces
    have bytes : overwrite seen (name ++ 58 :: (32 :: blanks ++ digits) ++ crlf) =
        name ++ 58 :: 32 :: (blanks ++ digits ++ 13 :: (10 :: seen.drop
          (name ++ 58 :: (32 :: blanks ++ digits) ++ crlf).length)) := by
      simp [overwrite, crlf]
    rw [bytes, numberIn_field folded (fun b mem => by rw [more b mem]; rfl) nonempty all (by decide), toInt_small small]

/-- The last number is the length just in the three cases. -/
theorem lastNumber_iff (block : LengthBlock fields)
    (complete : ∀ v ∈ bufferViews [] fields, named v = true → numberIn v ≠ none) :
    lastNumber 0 (bufferViews [] fields) = expectedLength fields ↔ ShowsLength fields := by
  constructor
  · intro same
    rcases last_named fields with other | ⟨before, h, after, split, begins, last⟩
    · exact .absent other
    · by_cases own : IsLength h ∧ 32 ∈ h
      · exact .field split own.1 own.2 last
      · refine .chance split begins last own ?_
        have mem : overwrite (leftBy [] before) (h ++ crlf) ∈ bufferViews [] fields := by
          rw [split, bufferViews_split]
          simp
        obtain ⟨n, number⟩ := Option.ne_none_iff_exists'.mp (complete _ mem (by rw [named_overwrite]; exact begins))
        rw [← same, split, lastNumber_last begins last, number]
        rfl
  · intro shows
    cases shows with
    | absent other =>
      have unset : fields.findSome? lengthValue = none := by
        refine List.findSome?_eq_none_iff.mpr fun h mem => ?_
        by_contra value
        obtain ⟨n, value⟩ := Option.ne_none_iff_exists'.mp value
        have yes := (isLength_of_value value).named
        rw [other h mem] at yes
        cases yes
      rw [lastNumber_absent other, expectedLength, unset]
      rfl
    | field split length blank last =>
      obtain ⟨n, value, small, expected⟩ := block.expected (split ▸ by simp) length
      rw [expected, split, lastNumber_last length.named last, numberIn_spaced value blank small]
      rfl
    | @chance before after h split begins last _ same =>
      have number := @lastNumber_last [] h 0 before after begins last
      rw [← split, same] at number
      exact number

/-- `relay_header` finds the length for every earlier content of its buffer if every line that begins with
Content-Length is followed by a blank and a complete number in what the lines so far have left in the buffer,
and the last of these lines is the field with a blank of its own, or shows the same number by chance. -/
theorem readsLength_iff (block : LengthBlock fields) : ReadsLength fields ↔
    (∀ v ∈ bufferViews [] fields, named v = true → numberIn v ≠ none) ∧ ShowsLength fields := by
  rw [readsLength_iff_lengthRead block.header]
  constructor
  · intro runs
    have complete : ∀ v ∈ bufferViews [] fields, named v = true → numberIn v ≠ none :=
      complete_of_lengthRead fun b _ => ⟨maxLine, _, runs _ List.length_replicate⟩
    have views := lengthRead_views complete (List.replicate maxLine 0) 0
    rw [List.nil_append, runs _ List.length_replicate] at views
    exact ⟨complete, (lastNumber_iff block complete).mp (Except.ok.inj views).symm⟩
  · intro both buf _
    have views := lengthRead_views both.1 buf 0
    rwa [List.nil_append, (lastNumber_iff block both.1).mpr both.2] at views

/-- A header with its length in the second of three fields. -/
def spacedFields : List (List UInt8) := [ascii "Host: a", ascii "CONTENT-length:  5", ascii "Connection: close"]

/-- A field without a blank. -/
def tightField : List UInt8 := ascii "Content-Length:5"

instance {h : List UInt8} : Decidable (HeaderField h) :=
  decidable_of_iff (h ≠ [] ∧ 10 ∉ h ∧ h.length + 2 < maxLine)
    ⟨fun all => ⟨all.1, all.2.1, all.2.2⟩, fun field => ⟨field.nonempty, field.line, field.short⟩⟩

theorem lengthBlock_spaced : LengthBlock spacedFields where
  header := by decide +kernel
  plain := by decide +kernel
  single := by decide +kernel
  spelled := by
    intro h mem length
    have value : ∀ h ∈ spacedFields, IsLength h → lengthValue h = some 5 := by decide +kernel
    exact ⟨5, value h mem length, by decide⟩

theorem lengthBlock_tight : LengthBlock [tightField] where
  header := by decide +kernel
  plain := by decide +kernel
  single := by decide +kernel
  spelled h mem _ := ⟨5, by rw [List.mem_singleton.mp mem]; decide +kernel, by decide⟩

theorem readsLength_spaced : ReadsLength spacedFields ∧ expectedLength spacedFields = 5 := by
  refine ⟨(readsLength_iff lengthBlock_spaced).mpr ⟨by decide +kernel, ?_⟩, by decide +kernel⟩
  exact @ShowsLength.field _ [ascii "Host: a"] [ascii "Connection: close"] (ascii "CONTENT-length:  5") rfl
    (by decide +kernel) (by decide +kernel) (by decide +kernel)

/-- Without a blank the search runs into what was in the buffer before. -/
theorem tight_not_read : ¬∀ fields, LengthBlock fields → ReadsLength fields := by
  intro reads
  have runs := (readsLength_iff_lengthRead lengthBlock_tight.header).mp (reads _ lengthBlock_tight)
  have complete := @complete_of_lengthRead [] 0 [tightField] fun b _ => ⟨maxLine, _, runs _ List.length_replicate⟩
  exact absurd complete (by decide +kernel)

end Lengths

end Splab.Proxy
