import Splab.Proxy.Forwarding

namespace Splab.Proxy
open CString

section Scans
variable {α β : Type} {f : List UInt8 → Except Fault α} {s : List UInt8}

/-- A scan that runs over the bytes can go on over one more. -/
def GoesOn (f : List UInt8 → Except Fault α) : Prop :=
  ∀ s, f s = .error .overrun → ∃ b, f (s ++ [b]) = .error .overrun

/-- So it can run over the end of every array. -/
theorem GoesOn.fill (goes : GoesOn f) (beyond : f s = .error .overrun) (n : Nat) :
    ∃ t : List UInt8, t.length = n ∧ f (s ++ t) = .error .overrun := by
  induction n with
  | zero => exact ⟨[], rfl, by rwa [List.append_nil]⟩
  | succ n ih =>
    obtain ⟨t, length, beyond⟩ := ih
    obtain ⟨b, more⟩ := goes _ beyond
    exact ⟨t ++ [b], by rw [List.length_append, length]; rfl, by rwa [← List.append_assoc]⟩

theorem bind_overrun {x : Except Fault α} {g : α → Except Fault β} :
    (x >>= g) = .error .overrun ↔ x = .error .overrun ∨ ∃ a, x = .ok a ∧ g a = .error .overrun := by
  cases x with
  | error fault => simp
  | ok a => simp

theorem scanned_overrun {o : Option α} : scanned o = .error .overrun ↔ o = none := by
  cases o <;> simp [scanned]

theorem found_overrun {o : Option (Option Nat)} : found o = .error .overrun ↔ o = none := by
  rcases o with _ | _ | i <;> simp [found]

theorem find_next {p : UInt8 → Bool} {b : UInt8} (unended : find p s = none) (other : p b = false) (nonzero : b ≠ 0) :
    find p (s ++ [b]) = none := by
  rw [find_eq_none, List.forall_mem_append, List.forall_mem_singleton]
  exact ⟨find_eq_none.mp unended, other, nonzero⟩

/-- A name that is complete with the last byte has no blank. -/
theorem strchr_name (same : strncasecmp s (ascii "Content-Length") = some true) (length : s.length = 14) :
    strchr s 32 = none := by
  have folded := (agrees_eq_true.mp same).2
  rw [show (ascii "Content-Length").length = 14 from rfl, List.take_of_length_le length.le] at folded
  refine find_eq_none.mpr fun b mem => ?_
  have lower : tolower b ∈ (ascii "Content-Length").map tolower := by
    rw [← folded]
    exact List.mem_map_of_mem mem
  obtain ⟨blank, zero, _⟩ := tolower_plain lower (by rw [ascii_contentLength]; decide +kernel)
  exact ⟨decide_eq_false blank, zero⟩

/-- The part of a string behind a hit, with more behind it. -/
theorem drop_hit {p : UInt8 → Bool} {i : Nat} {t : List UInt8} (hit : find p s = some (some i)) :
    i < s.length ∧ (s ++ t).drop (i + 1) = s.drop (i + 1) ++ t := by
  obtain ⟨pre, c, rest, rfl, rfl, _, _⟩ := find_eq_some.mp hit
  have inside : pre.length < (pre ++ c :: rest).length := by simp
  exact ⟨inside, List.drop_append_of_le_length inside⟩

theorem goesOn_headerLength : GoesOn headerLength := by
  intro s beyond
  unfold headerLength at beyond
  rcases bind_overrun.mp beyond with name | ⟨same, name, beyond⟩
  · obtain ⟨b, next⟩ := agrees_next (scanned_overrun.mp name)
    refine ⟨b, ?_⟩
    rcases next with more | ⟨same, length⟩
    · rw [headerLength, strncasecmp, more]
      rfl
    · have blank := @strchr_name (s ++ [b]) same (by rw [List.length_append]; exact length)
      rw [headerLength, strncasecmp, same, scanned, ok_bind, if_pos rfl, blank]
      rfl
  · cases same with
    | false => cases beyond
    | true =>
      have whole : ∀ t, strncasecmp (s ++ t) (ascii "Content-Length") = some true :=
        fun t => agrees_append (scanned_eq_ok name)
      rw [if_pos rfl] at beyond
      rcases bind_overrun.mp beyond with blank | ⟨i, blank, beyond⟩
      · have missed : strchr (s ++ [97]) 32 = none := find_next (found_overrun.mp blank) (by decide) (by decide)
        exact ⟨97, by rw [headerLength, whole, scanned, ok_bind, if_pos rfl, missed]; rfl⟩
      · rcases bind_overrun.mp beyond with number | ⟨n, _, beyond⟩
        · have hit : strchr (s ++ [49]) 32 = some (some i) := find_append (found_eq_ok blank)
          have digits : atoi (s.drop (i + 1) ++ [49]) = none := atoi_unended (scanned_overrun.mp number)
            (List.forall_mem_singleton.mpr rfl)
          refine ⟨49, ?_⟩
          rw [headerLength, whole, scanned, ok_bind, if_pos rfl, hit, found, ok_bind, (drop_hit (found_eq_ok blank)).2,
            digits]
          rfl
        · cases beyond

theorem goesOn_parseResponse : GoesOn parseResponse := by
  intro s beyond
  unfold parseResponse at beyond
  rcases bind_overrun.mp beyond with blank | ⟨i, blank, number⟩
  · have missed : strchr (s ++ [97]) 32 = none := find_next (found_overrun.mp blank) (by decide) (by decide)
    exact ⟨97, by rw [parseResponse, missed]; rfl⟩
  · have hit : strchr (s ++ [49]) 32 = some (some i) := find_append (found_eq_ok blank)
    have digits : atoi (s.drop (i + 1) ++ [49]) = none := atoi_unended (scanned_overrun.mp number)
            (List.forall_mem_singleton.mpr rfl)
    refine ⟨49, ?_⟩
    rw [parseResponse, hit, found, ok_bind, (drop_hit (found_eq_ok blank)).2, digits]
    rfl

/-- What `parse_request` does behind the scheme. -/
theorem parseRequest_scheme {method scheme rest : List UInt8} (plain : ∀ b ∈ method, b ≠ 32 ∧ b ≠ 0)
    (http : scheme.map tolower = ascii "http://") : parseRequest (method ++ 32 :: (scheme ++ rest)) =
      found (strpbrk rest (ascii " :/\r\n")) >>= fun len => strncpy rest len >>= fun hostname =>
        parsePort (rest.drop len) >>= fun port => found (strchr (scheme ++ rest) 32) >>= fun stop =>
          strncpy (scheme ++ rest) stop >>= fun uri => .ok (some ⟨method, uri, hostname, port⟩) := by
  have blank : found (strchr (method ++ 32 :: (scheme ++ rest)) 32) = .ok method.length :=
    found_strchr.mpr ⟨method, _, rfl, rfl, plain⟩
  have same : scanned (strncasecmp (scheme ++ rest) (ascii "http://")) = .ok true :=
    scanned_http.mpr ⟨scheme, rest, rfl, http⟩
  have hostbegin : ∀ n, (method ++ 32 :: (scheme ++ rest)).drop (method.length + 1 + 7 + n) = rest.drop n := fun n => by
    rw [← List.drop_drop, ← List.drop_drop, drop_blank, ← scheme_length http, List.drop_left]
  have host := hostbegin 0
  rw [Nat.add_zero, List.drop_zero] at host
  unfold parseRequest
  simp only [blank, ok_bind, strncpy_append, drop_blank, same, if_true, host, hostbegin]
  rfl

theorem goesOn_parsePort : GoesOn parsePort := by
  intro s beyond
  cases s with
  | nil => exact ⟨58, rfl⟩
  | cons c rest =>
    rw [parsePort] at beyond
    split at beyond
    · next colon =>
      have digits : atoi (rest ++ [49]) = none :=
        atoi_unended (scanned_overrun.mp beyond) (List.forall_mem_singleton.mpr rfl)
      exact ⟨49, by rw [List.cons_append, parsePort, if_pos colon, digits]; rfl⟩
    · cases beyond

theorem goesOn_parseRequest : GoesOn parseRequest := by
  intro s beyond
  have start := beyond
  unfold parseRequest at beyond
  rcases bind_overrun.mp beyond with blank | ⟨i, blank, beyond⟩
  · have missed : strchr (s ++ [97]) 32 = none := find_next (found_overrun.mp blank) (by decide) (by decide)
    exact ⟨97, by rw [parseRequest, missed]; rfl⟩
  obtain ⟨method, text, rfl, rfl, plain⟩ := found_strchr.mp blank
  have split : ∀ b, (method ++ 32 :: text) ++ [b] = method ++ 32 :: (text ++ [b]) := fun b => List.append_assoc ..
  simp only [strncpy_append, ok_bind, drop_blank] at beyond
  rcases bind_overrun.mp beyond with http | ⟨same, http, beyond⟩
  · obtain ⟨b, next⟩ := agrees_next (scanned_overrun.mp http)
    have found' : found (strchr (method ++ 32 :: (text ++ [b])) 32) = .ok method.length :=
      found_strchr.mpr ⟨method, _, rfl, rfl, plain⟩
    refine ⟨b, ?_⟩
    rw [split]
    unfold parseRequest
    simp only [found', ok_bind, strncpy_append, drop_blank, strncasecmp]
    rcases next with more | ⟨same, length⟩
    · rw [more]
      rfl
    · have nothing : (method ++ 32 :: (text ++ [b])).drop (method.length + 1 + 7) = [] := by
        have seven : text.length + 1 = 7 := length
        refine List.drop_eq_nil_of_le ?_
        simp only [List.length_append, List.length_cons, List.length_nil]
        omega
      rw [same, scanned, ok_bind, if_pos rfl, nothing]
      rfl
  cases same with
  | false => cases beyond
  | true =>
    obtain ⟨scheme, rest, rfl, folded⟩ := scanned_http.mp http
    have more : ∀ b, (method ++ 32 :: (scheme ++ rest)) ++ [b] = method ++ 32 :: (scheme ++ (rest ++ [b])) := by
      intro b
      rw [split, List.append_assoc]
    rw [parseRequest_scheme plain folded] at start
    rcases bind_overrun.mp start with len | ⟨n, len, start⟩
    · have missed : strpbrk (rest ++ [97]) (ascii " :/\r\n") = none :=
        find_next (found_overrun.mp len) (by decide +kernel) (by decide)
      exact ⟨97, by rw [more, parseRequest_scheme plain folded, missed]; rfl⟩
    obtain ⟨host, c, tail, rfl, rfl, ends, hostPlain⟩ := found_strpbrk.mp len
    have again : ∀ b, found (strpbrk ((host ++ c :: tail) ++ [b]) (ascii " :/\r\n")) = .ok host.length := fun b =>
      found_strpbrk.mpr ⟨host, c, tail ++ [b], List.append_assoc .., rfl, ends, hostPlain⟩
    have name : ∀ b, strncpy ((host ++ c :: tail) ++ [b]) host.length = .ok host := fun b => by
      rw [List.append_assoc, strncpy_append]
    have behind : ∀ b, ((host ++ c :: tail) ++ [b]).drop host.length = (c :: tail) ++ [b] := fun b => by
      rw [List.append_assoc, List.drop_left]
    simp only [strncpy_append, ok_bind, List.drop_left] at start
    rcases bind_overrun.mp start with port | ⟨port, number, start⟩
    · obtain ⟨b, port⟩ := goesOn_parsePort _ port
      exact ⟨b, by rw [more, parseRequest_scheme plain folded, again, ok_bind, name, ok_bind, behind, port]; rfl⟩
    rcases bind_overrun.mp start with stop | ⟨i, stop, start⟩
    · have number' : parsePort ((c :: tail) ++ [97]) = .ok port :=
        (local_parsePort _ _ (.of_ok number)).trans number
      have missed : strchr (scheme ++ ((host ++ c :: tail) ++ [97])) 32 = none := by
        rw [← List.append_assoc]
        exact find_next (found_overrun.mp stop) (by decide) (by decide)
      refine ⟨97, ?_⟩
      rw [more, parseRequest_scheme plain folded, again, ok_bind, name, ok_bind, behind, number', ok_bind, missed]
      rfl
    · obtain ⟨uri, version, same, rfl, _⟩ := found_strchr.mp stop
      rw [same, strncpy_append] at start
      cases start

end Scans

/-! `process` on arrays that hold just what was received. A scan that needs more runs over their end. -/

def ownReadline (fd : Side) : Thread Int := fun s =>
  let (bytes, stop, rest) := takeLine maxLine (s.input fd)
  .ok (stop.result bytes.length) ((s.withInput fd rest).withBuf (overwrite s.buf bytes))

def ownRead (fd : Side) (i : Nat) : Thread Got := fun s =>
  match s.input fd with
  | [] => .ok .eof s
  | none :: rest => .ok .failed (s.withInput fd rest)
  | some b :: rest => .ok (.byte b) ((s.withInput fd rest).withBuf (overwrite s.buf (s.buf.take i ++ [b])))

def ownHeaderLoop (source target : Side) : Nat → Int → Int → Thread (Int × Int)
  | 0, _, content => pure (-1, content)
  | fuel + 1, sum, content => do
    let len ← ownReadline source
    if len < 0 then pure (-1, content)
    else do
      let length ← scanBuf headerLength
      let content := length.getD content
      if len = 0 then pure (sum, content)
      else do
        let res ← writebuf target len.toNat
        if res < 0 then pure (-1, content)
        else do
          let last ← scanBuf lastLine
          if last then pure (sum + len, content) else ownHeaderLoop source target fuel (sum + len) content

def ownHeader (source target : Side) : Thread (Int × Int) := fun s =>
  ownHeaderLoop source target ((s.input source).length + 1) 0 0 s

def ownContentLoop (source target : Side) (content : Int) : Nat → Int → Nat → Thread Int
  | 0, _, _ => pure (-1)
  | fuel + 1, i, j =>
    if content ≠ 0 ∧ i = content then finish target i j
    else do
      match ← makeRoom target maxLine j with
      | none => pure (-1)
      | some j =>
        match ← ownRead source j with
        | .failed => pure (-1)
        | .eof => finish target i j
        | .byte _ => ownContentLoop source target content fuel ((i + 1).bmod (2 ^ 32)) (j + 1)

def ownContent (source target : Side) (content : Int) : Thread Int := fun s =>
  ownContentLoop source target content ((s.input source).length + 1) 0 0 s

/-- Whether anything is left to be read. -/
def more (source : Side) : Thread Bool := fun s => .ok (s.input source ≠ []) s

def ownForward (content : Int) (post : Bool) : Thread Unit :=
  if post then do
    let _ ← ownContent .client .server content
    pure ()
  else pure ()

/-- The test of the method counts only if there is a body. -/
def ownSendRest (method : List UInt8) : Thread Unit := do
  let (_, content) ← ownHeader .client .server
  if content ≠ 0 ∧ (← more .client) then do
    let post ← scanBuf fun _ => isPost method
    ownForward content post
  else pure ()

def ownSendRequest (connects : Bool) : Thread (Option Target) := do
  let len ← ownReadline .client
  if 0 < len then do
    match ← scanBuf parseRequest with
    | none => pure none
    | some target =>
      let connected ← openServerfd connects (cstring target.hostname) target.port
      if connected then do
        let _ ← writebuf .server len.toNat
        ownSendRest target.method
        pure (some target)
      else pure none
  else pure none

def ownAnswer (content len : Int) (head : Bool) : Thread Int :=
  if head then pure len
  else do
    let body ← ownContent .server .client content
    pure (if 0 < body then (len + body).bmod (2 ^ 32) else len)

def ownRelayRest (method : List UInt8) (msg len : Int) : Thread Int := do
  let (_, content) ← ownHeader .server .client
  if (2 ≤ msg.tdiv 100 ∧ msg ≠ 204 ∧ msg ≠ 304) ∧ (← more .server) then do
    let head ← scanBuf fun _ => isHead method
    ownAnswer content len head
  else pure len

def ownRelayResponse (method : List UInt8) : Thread Int := do
  let len ← ownReadline .server
  if 0 < len then do
    let msg ← scanBuf parseResponse
    let _ ← writebuf .client len.toNat
    ownRelayRest method msg len
  else pure 0

def ownProcess (connects : Bool) : Thread Unit := do
  match ← ownSendRequest connects with
  | none => pure ()
  | some target =>
    let sum ← ownRelayResponse target.method
    if sum ≠ 0 then writeLog (cstring target.uri) sum else pure ()

/-- The state of a thread that has not received anything. -/
def Net.fresh (net : Net) : Conn where
  input := net.input
  output side := ⟨[], net.writes side⟩
  buf := []
  dialled := none
  log := none

/-- Every scan of the exchange ends within the bytes received. -/
def Net.Enough (net : Net) : Prop := ∀ s, ownProcess net.connects net.fresh ≠ .error .overrun s

/-- How the exchange ends, with all that its thread has done but the content of the buffer. -/
def Net.behaviour (net : Net) (scratch : Scratch) : Option Fault × Conn :=
  match process scratch net.connects (net.start scratch) with
  | .ok _ s => (none, s.withBuf [])
  | .error fault s => (some fault, s.withBuf [])

/-- The exchange is the same whatever the arrays hold at its start, and never looks behind their end. -/
structure Net.OwnBytes (net : Net) : Prop where
  same : ∀ scratch scratch', net.behaviour scratch = net.behaviour scratch'
  inside : ∀ scratch, (net.behaviour scratch).1 ≠ some .overrun

/-- The same state with the received bytes in an array. -/
def Conn.inArray (s : Conn) (array : List UInt8) : Conn := s.withBuf (overwrite array s.buf)

/-- The arrays with some content of the buffer. -/
def Scratch.withBuf (array : List UInt8) (size : array.length = maxLine) : Scratch :=
  { Scratch.fill 0 with buf := ⟨array, size⟩ }

/-- The computation depends on what the arrays hold behind the received bytes: it can run over the end of one, or
leaves other bytes to be read from one of the sides. -/
def Depends {α : Type} (x : Scratch → Thread α) (sides : Set Side) (s : Conn) : Prop :=
  (∃ scratch s', x scratch (s.inArray scratch.buf.bytes) = .error .overrun s') ∨
    ∃ side ∈ sides, ∃ scratch scratch', (finalState (x scratch (s.inArray scratch.buf.bytes))).input side ≠
      (finalState (x scratch' (s.inArray scratch'.buf.bytes))).input side

/-- On arrays that hold the received bytes `x` does what `y` does on these alone, and depends on the rest of the arrays
where `y` runs over their end. -/
def Tracks {α β : Type} (x : Scratch → Thread α) (y : Thread β) (value : Scratch → β → α) (sides : Set Side)
    (s : Conn) : Prop := s.buf.length ≤ maxLine →
  match y s with
  | .ok b s' => s'.buf.length ≤ maxLine ∧
      ∀ scratch, x scratch (s.inArray scratch.buf.bytes) = .ok (value scratch b) (s'.inArray scratch.buf.bytes)
  | .error fault s' => if fault = .overrun then Depends x sides s
    else ∀ scratch, x scratch (s.inArray scratch.buf.bytes) = .error fault (s'.inArray scratch.buf.bytes)

/-- The same for a computation on the buffer alone. -/
abbrev Mirrors {α : Type} (x y : Thread α) (s : Conn) : Prop := Tracks (fun _ => x) y (fun _ a => a) ∅ s

section Tracks
variable {α β γ δ : Type} {x : Scratch → Thread α} {y : Thread β} {f : Scratch → α → Thread γ} {h : β → Thread δ}
  {value : Scratch → β → α} {next : Scratch → δ → γ} {sides sides' : Set Side} {s : Conn}

theorem Depends.mono (depends : Depends x sides s) (sub : sides ⊆ sides') : Depends x sides' s :=
  depends.imp_right fun ⟨side, mem, differ⟩ => ⟨side, sub mem, differ⟩

theorem Tracks.mono (tracks : Tracks x y value sides s) (sub : sides ⊆ sides') : Tracks x y value sides' s := by
  intro short
  have one := tracks short
  cases run : y s with
  | ok b s' =>
    rw [run] at one
    exact one
  | error fault s' =>
    rw [run] at one
    simp only at one ⊢
    split_ifs at one ⊢
    · exact one.mono sub
    · exact one

/-- What follows reads nothing more from the sides at which the first part differs. -/
theorem Tracks.bind (first : Tracks x y value sides s)
    (keeps : ∀ side ∈ sides, ∀ scratch a t, (finalState (f scratch a t)).input side = t.input side)
    (sub : sides ⊆ sides')
    (rest : ∀ b s', y s = .ok b s' → Tracks (fun scratch => f scratch (value scratch b)) (h b) next sides' s') :
    Tracks (fun scratch => x scratch >>= f scratch) (y >>= h) next sides' s := by
  intro short
  have one := first short
  rw [bind_run]
  cases run : y s with
  | ok b s' =>
    rw [run] at one
    have two := rest b s' run one.1
    have same : ∀ scratch : Scratch, (x scratch >>= f scratch) (s.inArray scratch.buf.bytes) =
        f scratch (value scratch b) (s'.inArray scratch.buf.bytes) := fun scratch => by rw [bind_run, one.2 scratch]
    simp only
    cases later : h b s' with
    | ok c s'' =>
      rw [later] at two
      exact ⟨two.1, fun scratch => (same scratch).trans (two.2 scratch)⟩
    | error fault s'' =>
      rw [later] at two
      simp only at two ⊢
      split_ifs at two ⊢
      · rcases two with ⟨scratch, t, beyond⟩ | ⟨side, mem, scratch, scratch', differ⟩
        · exact .inl ⟨scratch, t, (same scratch).trans beyond⟩
        · exact .inr ⟨side, mem, scratch, scratch', by simpa only [same] using differ⟩
      · exact fun scratch => (same scratch).trans (two scratch)
  | error fault s' =>
    rw [run] at one
    simp only at one ⊢
    split_ifs at one ⊢
    · rcases one with ⟨scratch, t, beyond⟩ | ⟨side, mem, scratch, scratch', differ⟩
      · exact .inl ⟨scratch, t, bind_run.trans (by rw [beyond])⟩
      · have final : ∀ scratch t,
            (finalState ((x scratch >>= f scratch) t)).input side = (finalState (x scratch t)).input side :=
          fun scratch t => by
            rw [bind_run]
            cases x scratch t with
            | ok a t' => exact keeps side mem scratch a t'
            | error fault t' => rfl
        exact .inr ⟨side, sub mem, scratch, scratch', by rwa [final, final]⟩
    · exact fun scratch => bind_run.trans (by rw [one scratch])

theorem Mirrors.bind {x y : Thread α} {h : α → Thread δ} (first : Mirrors x y s)
    (rest : ∀ a s', y s = .ok a s' → Tracks (fun scratch => f scratch a) (h a) next sides s') :
    Tracks (fun scratch => x >>= f scratch) (y >>= h) next sides s :=
  Tracks.bind first (fun side none => absurd none (Set.notMem_empty side)) (Set.empty_subset sides) rest

theorem Tracks.ite {c : Prop} [Decidable c] {x x' : Scratch → Thread α} {y y' : Thread β}
    (yes : c → Tracks x y value sides s) (no : ¬c → Tracks x' y' value sides s) :
    Tracks (fun scratch => if c then x scratch else x' scratch) (if c then y else y') value sides s := by
  split_ifs with holds
  · exact yes holds
  · exact no holds

theorem tracks_pure {b : β} {c : Scratch → α} (same : ∀ scratch, value scratch b = c scratch) :
    Tracks (fun scratch => pure (c scratch)) (pure b) value sides s :=
  fun short => ⟨short, fun scratch => congrArg (fun c => EStateM.Result.ok c _) (same scratch).symm⟩

end Tracks

theorem overwrite_overwrite {array known bytes : List UInt8} :
    overwrite (overwrite array known) bytes = overwrite array (overwrite known bytes) := by
  unfold overwrite
  rw [List.drop_append, List.length_append, List.length_drop, List.drop_drop, List.append_assoc]
  congr 3
  omega

section Mirrors
variable {α : Type} {s : Conn} {scan : List UInt8 → Except Fault α} {source target fd : Side}

theorem mirrors_pure {a : α} : Mirrors (pure a) (pure a) s := tracks_pure fun _ => rfl

theorem inArray_length {array : List UInt8} (size : array.length = maxLine) (short : s.buf.length ≤ maxLine) :
    (s.inArray array).buf.length = maxLine := overwrite_length size short

theorem mirrors_readline : Mirrors (readline fd maxLine) (ownReadline fd) s := by
  intro short
  rcases line : takeLine maxLine (s.input fd) with ⟨bytes, stop, rest⟩
  have length : (overwrite s.buf bytes).length ≤ maxLine := by
    have bound := takeLine_length line
    rw [overwrite, List.length_append, List.length_drop]
    omega
  simp only [ownReadline, line]
  refine ⟨length, fun scratch => ?_⟩
  have room : maxLine ≤ (s.inArray scratch.buf.bytes).buf.length := (inArray_length scratch.buf.size short).symm.le
  have same : (s.inArray scratch.buf.bytes).input fd = s.input fd := rfl
  rw [readline_run room (same ▸ line)]
  simp only [Conn.inArray, Conn.withBuf, Conn.withInput, overwrite_overwrite]

/-- A scan that ends within the received bytes. -/
theorem mirrors_decided (inner : Local scan) (decided : Decided scan s.buf) :
    Mirrors (scanBuf scan) (scanBuf scan) s := by
  intro short
  have ended : ∀ array, scan (s.inArray array).buf = scan s.buf := fun array => inner _ _ decided
  simp only [scanBuf, ended]
  cases result : scan s.buf with
  | ok a => exact ⟨short, fun _ => rfl⟩
  | error fault =>
    simp only
    rw [if_neg fun beyond => decided (by rw [result, beyond])]
    exact fun _ => trivial

theorem mirrors_scan (inner : Local scan) (goes : GoesOn scan) : Mirrors (scanBuf scan) (scanBuf scan) s := by
  by_cases beyond : scan s.buf = .error .overrun
  · intro short
    obtain ⟨t, length, runs⟩ := goes.fill beyond (maxLine - s.buf.length)
    have size : (List.replicate s.buf.length 0 ++ t).length = maxLine := by
      rw [List.length_append, List.length_replicate, length]
      omega
    have bytes : (s.inArray (List.replicate s.buf.length 0 ++ t)).buf = s.buf ++ t := by
      rw [Conn.inArray, Conn.withBuf, overwrite, List.drop_left' List.length_replicate]
    have run : scanBuf scan (s.inArray (List.replicate s.buf.length 0 ++ t)) =
        .error .overrun (s.inArray (List.replicate s.buf.length 0 ++ t)) := by
      rw [scanBuf, bytes, runs]
    simp only [scanBuf, beyond]
    exact .inl ⟨.withBuf _ size, _, run⟩
  · exact mirrors_decided inner beyond

theorem mirrors_writebuf {n : Nat} (received : n ≤ s.buf.length) :
    Mirrors (writebuf target n) (writebuf target n) s := by
  intro short
  have same : ∀ array, (s.inArray array).buf.take n = s.buf.take n := fun array =>
    List.take_append_of_le_length received
  simp only [writebuf]
  exact ⟨short, fun scratch => by simp only [same]; rfl⟩

theorem mirrors_read {i : Nat} (received : i ≤ s.buf.length) (room : i < maxLine) :
    Mirrors (read fd i) (ownRead fd i) s := by
  intro short
  unfold ownRead
  cases input : s.input fd with
  | nil => exact ⟨short, fun scratch => read_eof (s := s.inArray scratch.buf.bytes) input⟩
  | cons event rest =>
    cases event with
    | none => exact ⟨short, fun scratch => read_failed (s := s.inArray scratch.buf.bytes) input⟩
    | some b =>
      refine ⟨?_, fun scratch => ?_⟩
      · simp only [Conn.withBuf, overwrite, List.length_append, List.length_take, List.length_drop,
          List.length_singleton]
        omega
      · have inside : i < (s.inArray scratch.buf.bytes).buf.length := by
          rwa [inArray_length scratch.buf.size short]
        have bytes : (s.inArray scratch.buf.bytes).buf.set i b =
            overwrite scratch.buf.bytes (overwrite s.buf (s.buf.take i ++ [b])) := by
          rw [← overwrite_overwrite, List.set_eq_take_append_cons_drop, if_pos inside, overwrite]
          have head : (overwrite scratch.buf.bytes s.buf).take i = s.buf.take i :=
            List.take_append_of_le_length received
          simp only [Conn.inArray, Conn.withBuf, head, List.length_append, List.length_take, List.length_singleton,
            Nat.min_eq_left received]
          rw [List.append_assoc]
          rfl
        refine (read_byte (s := s.inArray scratch.buf.bytes) input inside).trans ?_
        rw [bytes]
        rfl

end Mirrors

section Halves
variable {s s' : Conn} {source target fd : Side} {content sum : Int} {fuel : Nat} {len : Int}

theorem takeLine_ended {n : Nat} {input rest : List (Option UInt8)} {bytes : List UInt8}
    (line : takeLine n input = (bytes, .line, rest)) : bytes.getLast? = some 10 ∨ bytes.length = n := by
  induction n generalizing input bytes with
  | zero =>
    cases line
    exact .inr rfl
  | succ n ih =>
    match input with
    | [] => cases line
    | none :: _ => cases line
    | some b :: input =>
      rw [takeLine] at line
      split at line
      · next newline =>
        cases line
        exact .inl (by rw [newline]; rfl)
      · rcases inner : takeLine n input with ⟨bytes', stop, rest'⟩
        rw [inner] at line
        cases line
        rcases ih inner with last | length
        · exact .inl (by rw [List.getLast?_cons, last]; rfl)
        · exact .inr (by rw [List.length_cons, length])

/-- The test for the empty line needs no more than the line. -/
theorem lastLine_decided {input rest : List (Option UInt8)} {bytes known : List UInt8}
    (line : takeLine maxLine input = (bytes, .line, rest)) : Decided lastLine (overwrite known bytes) := by
  have ended : agrees id (overwrite known bytes) crlf ≠ none := by
    rcases bytes with _ | ⟨b, _ | ⟨b', bytes⟩⟩
    · exact absurd rfl (takeLine_nonempty line)
    · rcases takeLine_ended line with last | length
      · cases last
        exact Option.some_ne_none false
      · cases length
    · exact agrees_long (by simp [overwrite, crlf])
  exact fun beyond => ended (scanned_overrun.mp beyond)

theorem ownReadline_ok (run : ownReadline fd s = .ok len s') : ∃ bytes stop rest,
    takeLine maxLine (s.input fd) = (bytes, stop, rest) ∧ len = stop.result bytes.length ∧
      s'.buf = overwrite s.buf bytes := by
  rcases line : takeLine maxLine (s.input fd) with ⟨bytes, stop, rest⟩
  simp only [ownReadline, line] at run
  cases run
  exact ⟨bytes, stop, rest, rfl, rfl, rfl⟩

/-- The bytes of the line are at the start of the buffer. -/
theorem ownReadline_received (run : ownReadline fd s = .ok len s') : len.toNat ≤ s'.buf.length := by
  obtain ⟨bytes, stop, rest, _, rfl, buf⟩ := ownReadline_ok run
  have long : bytes.length ≤ s'.buf.length := by
    rw [buf, overwrite, List.length_append]
    omega
  cases stop <;> simp only [Stop.result] <;> omega

theorem ownReadline_line (run : ownReadline fd s = .ok len s') (positive : 0 < len) :
    Decided lastLine s'.buf := by
  obtain ⟨bytes, stop, rest, line, rfl, buf⟩ := ownReadline_ok run
  cases stop with
  | line => exact buf ▸ lastLine_decided line
  | eof => cases positive
  | failed => cases positive

theorem scanBuf_ok {α : Type} {scan : List UInt8 → Except Fault α} {a : α} (run : scanBuf scan s = .ok a s') :
    s' = s := by
  unfold scanBuf at run
  split at run
  · cases run
    rfl
  · cases run

theorem writebuf_buf {n : Nat} {r : Int} (run : writebuf target n s = .ok r s') : s'.buf = s.buf := by
  cases run
  rfl

theorem mirrors_headerLoop : Mirrors (relayHeaderLoop source target fuel sum content)
    (ownHeaderLoop source target fuel sum content) s := by
  induction fuel generalizing s sum content with
  | zero => exact mirrors_pure
  | succ fuel ih =>
    refine mirrors_readline.bind fun len s' run => .ite (fun _ => mirrors_pure) fun some => ?_
    refine (mirrors_scan local_headerLength goesOn_headerLength).bind fun n t same => ?_
    obtain rfl := scanBuf_ok same
    refine .ite (fun _ => mirrors_pure) fun nonzero => ?_
    refine (mirrors_writebuf (ownReadline_received run)).bind fun res t wrote => ?_
    refine .ite (fun _ => mirrors_pure) fun _ => ?_
    have decided : Decided lastLine t.buf := by
      rw [writebuf_buf wrote]
      exact ownReadline_line run (by omega)
    exact (mirrors_decided local_lastLine decided).bind fun last t' _ => .ite (fun _ => mirrors_pure) fun _ => ih

theorem mirrors_header : Mirrors (relayHeader source target) (ownHeader source target) s :=
  @mirrors_headerLoop s source target 0 0 ((s.input source).length + 1)

theorem mirrors_finish {i : Int} {j : Nat} (received : j ≤ s.buf.length) :
    Mirrors (finish target i j) (finish target i j) s :=
  (mirrors_writebuf received).bind fun _ _ _ => mirrors_pure

theorem mirrors_makeRoom {j : Nat} (received : j ≤ s.buf.length) :
    Mirrors (makeRoom target maxLine j) (makeRoom target maxLine j) s :=
  .ite (fun _ => (mirrors_writebuf received).bind fun _ _ _ => mirrors_pure) fun _ => mirrors_pure

theorem ownRead_buf {i : Nat} {got : Got} (run : ownRead fd i s = .ok got s') :
    s.buf.length ≤ s'.buf.length := by
  unfold ownRead at run
  split at run
  · cases run
    exact le_rfl
  · cases run
    exact le_rfl
  · cases run
    simp only [Conn.withBuf, overwrite, List.length_append, List.length_take, List.length_drop,
      List.length_singleton]
    omega

theorem ownRead_byte {i : Nat} {b : UInt8} (received : i ≤ s.buf.length) (run : ownRead fd i s = .ok (.byte b) s') :
    i + 1 ≤ s'.buf.length := by
  unfold ownRead at run
  split at run
  · cases run
  · cases run
  · cases run
    simp only [Conn.withBuf, overwrite, List.length_append, List.length_take, List.length_drop,
      List.length_singleton]
    omega

/-- There is room for the next byte, and no byte of the buffer up to it is missing. -/
theorem makeRoom_ok {j k : Nat} (received : j ≤ s.buf.length) (low : j ≤ maxLine)
    (run : makeRoom target maxLine j s = .ok (some k) s') : s'.buf = s.buf ∧ k ≤ s'.buf.length ∧ k < maxLine := by
  unfold makeRoom at run
  split at run
  · obtain ⟨res, t, wrote, run⟩ := bind_eq_ok.mp run
    have same := writebuf_buf wrote
    split at run
    · cases run
    · cases run
      exact ⟨same, Nat.zero_le _, by decide⟩
  · next other =>
    cases run
    exact ⟨rfl, received, by omega⟩

theorem mirrors_contentLoop {i : Int} {j : Nat} (received : j ≤ s.buf.length) (low : j ≤ maxLine) :
    Mirrors (relayContentLoop source target content maxLine fuel i j)
      (ownContentLoop source target content fuel i j) s := by
  induction fuel generalizing s i j with
  | zero => exact mirrors_pure
  | succ fuel ih =>
    refine .ite (fun _ => mirrors_finish received) fun _ => (mirrors_makeRoom received).bind fun place t made => ?_
    cases place with
    | none => exact mirrors_pure
    | some k =>
      obtain ⟨_, received, room⟩ := makeRoom_ok received low made
      refine (mirrors_read received room).bind fun got t' taken => ?_
      cases got with
      | failed => exact mirrors_pure
      | eof => exact mirrors_finish (received.trans (ownRead_buf taken))
      | byte b => exact ih (ownRead_byte received taken) room

theorem mirrors_content : Mirrors (relayContent source target content maxLine) (ownContent source target content) s :=
  @mirrors_contentLoop s source target content ((s.input source).length + 1) 0 0 (Nat.zero_le _) (Nat.zero_le _)

end Halves

section Tests
variable {α : Type} {side : Side} {s : Conn}

/-- A test of the method, behind which the two ways leave other bytes to be read. -/
theorem tracks_test {text method : List UInt8} (lower : text.map tolower = text) (plain : 0 ∉ text)
    (short : text.length ≤ maxLine) {k l : Bool → Thread α} (mirrors : ∀ same, Mirrors (k same) (l same) s)
    (differ : ∀ array, array.length = maxLine →
      (finalState (k true (s.inArray array))).input side ≠ (finalState (k false (s.inArray array))).input side) :
    Tracks (fun scratch => scanBuf (fun _ => scanned (strncasecmp (overwrite scratch.method.bytes method) text)) >>= k)
      (scanBuf (fun _ => scanned (strncasecmp method text)) >>= l) (fun _ a => a) {side} s := by
  cases result : strncasecmp method text with
  | some same =>
    have ended : ∀ array, strncasecmp (overwrite array method) text = some same := fun array => agrees_append result
    simp only [ended]
    exact (mirrors same).mono (Set.empty_subset _)
  | none =>
    intro _
    obtain ⟨scratch, yes⟩ := test_part lower plain short result true
    obtain ⟨scratch', no⟩ := test_part lower plain short result false
    refine .inr ⟨side, rfl, { scratch with buf := .fill 0 }, { scratch' with buf := .fill 0 }, ?_⟩
    simp only [yes, no]
    exact differ _ List.length_replicate

/-- A test that counts only if there is a body. -/
theorem tracks_body {text method : List UInt8} (lower : text.map tolower = text) (plain : 0 ∉ text)
    (short : text.length ≤ maxLine) {p : Prop} [Decidable p] {k l : Bool → Thread α} {a : α}
    (mirrors : p → ∀ same, Mirrors (k same) (l same) s)
    (differ : p → ∀ array, array.length = maxLine →
      (finalState (k true (s.inArray array))).input side ≠ (finalState (k false (s.inArray array))).input side)
    (idle : ¬p → ∀ same array, k same (s.inArray array) = .ok a (s.inArray array)) :
    Tracks (fun scratch => scanBuf (fun _ => scanned (strncasecmp (overwrite scratch.method.bytes method) text)) >>= k)
      (if p then scanBuf (fun _ => scanned (strncasecmp method text)) >>= l else pure a) (fun _ a => a) {side} s := by
  by_cases body : p
  · rw [if_pos body]
    exact tracks_test lower plain short (mirrors body) (differ body)
  · rw [if_neg body]
    refine fun bound => ⟨bound, fun scratch => ?_⟩
    obtain ⟨same, test⟩ := @method_test scratch method text short
    simp only
    rw [bind_run, scanBuf, test]
    exact idle body same scratch.buf.bytes

end Tests

section Exchange
variable {s s' : Conn} {source target : Side} {content : Int} {method : List UInt8} {net : Net} {scratch : Scratch}

/-- Without bytes to be read `relay_content` does nothing. -/
theorem relayContent_idle (empty : s.input source = []) : relayContent source target content maxLine s = .ok 0 s := by
  have fuel : (s.input source).length + 1 = 1 := by rw [empty]; rfl
  rw [relayContent, fuel, relayContentLoop, if_neg (by omega)]
  have ended : ∀ i, finish target i 0 s = .ok i s := fun i => by
    rw [@finish_run s source target i 0, List.take_zero, sendAll]
    exact congrArg (EStateM.Result.ok i) after_self
  have room : makeRoom target maxLine 0 s = .ok (some 0) s := by
    rw [makeRoom, if_neg (by decide)]
    rfl
  rw [bind_run, room]
  simp only
  rw [bind_run, read_eof empty]
  exact ended 0

theorem pour_left {len : Nat} {input : List (Option UInt8)} {out : Output} {waiting : List UInt8} {i : Int} :
    (pour content len input out waiting i).2.1.length ≤ input.length := by
  induction input generalizing out waiting i with
  | nil =>
    rw [pour]
    split_ifs <;> simp
  | cons event rest ih =>
    rw [pour]
    cases event with
    | none => split_ifs <;> simp
    | some b =>
      simp only
      split_ifs
      · exact le_rfl
      · exact le_rfl
      all_goals exact ih.trans (Nat.le_succ _)

/-- Otherwise it takes something. -/
theorem relayContent_takes (more : s.input source ≠ []) (size : s.buf.length = maxLine) :
    ((finalState (relayContent source target content maxLine s)).input source).length < (s.input source).length := by
  obtain ⟨event, rest, stream⟩ := List.exists_cons_of_ne_nil more
  rcases poured : pour content maxLine (s.input source) (s.output target) [] 0 with ⟨r, input', out'⟩
  obtain ⟨buf, _, run⟩ := relayContent_run (by decide) size.symm.le poured
  have left : input'.length ≤ rest.length := by
    rw [stream, pour, if_neg (by omega), if_neg (by simp [maxLine])] at poured
    cases event with
    | none =>
      cases poured
      exact le_rfl
    | some b =>
      have bound := congrArg (fun result => result.2.1.length) poured
      exact bound ▸ pour_left
  rw [run, finalState, after_input, stream, List.length_cons]
  omega

/-- What `sendRest` does behind its test. -/
def forward (content : Int) (post : Bool) : Thread Unit :=
  if post ∧ content ≠ 0 then do
    let _ ← relayContent .client .server content maxLine
    pure ()
  else pure ()

/-- What `relayRest` does behind its test. -/
def answer (content msg len : Int) (head : Bool) : Thread Int :=
  if head = false ∧ 2 ≤ msg.tdiv 100 ∧ msg ≠ 204 ∧ msg ≠ 304 then do
    let body ← relayContent .server .client content maxLine
    pure (if 0 < body then (len + body).bmod (2 ^ 32) else len)
  else pure len

theorem ownHeader_short {r : Int × Int} (short : s.buf.length ≤ maxLine)
    (run : ownHeader source target s = .ok r s') : s'.buf.length ≤ maxLine := by
  have header := @mirrors_header s source target short
  rw [run] at header
  exact header.1

/-- A body leaves other bytes to be read than none. -/
theorem content_differs {α : Type} {value : Int → α} (more : s.input source ≠ []) (size : s.buf.length = maxLine) :
    (finalState ((do return value (← relayContent source target content maxLine) : Thread α) s)).input source ≠
      s.input source := by
  have takes := @relayContent_takes s source target content more size
  rw [bind_run]
  intro same
  cases run : relayContent source target content maxLine s with
  | ok i t =>
    rw [run] at same takes
    exact takes.ne (congrArg List.length same)
  | error fault t =>
    rw [run] at same takes
    exact takes.ne (congrArg List.length same)

theorem tracks_sendRest {t : Target} :
    Tracks (fun scratch => sendRest (t.store scratch)) (ownSendRest t.method) (fun _ u => u) {.client} s := by
  intro short
  refine (mirrors_header.bind fun r s' run => ?_) short
  obtain ⟨sum, content⟩ := r
  refine tracks_body (p := content ≠ 0 ∧ decide (s'.input .client ≠ []) = true) (k := forward content)
    (l := ownForward content) (a := ()) (by decide +kernel) (by decide +kernel) (by decide +kernel)
    (fun body same => ?_) (fun body array size => ?_) fun none same array => ?_
  · cases same with
    | false => exact mirrors_pure
    | true =>
      rw [forward, ownForward, if_pos ⟨rfl, body.1⟩, if_pos rfl]
      exact mirrors_content.bind fun _ _ _ => mirrors_pure
  · rw [forward, forward, if_pos ⟨rfl, body.1⟩, if_neg (by simp)]
    exact content_differs (of_decide_eq_true body.2) (inArray_length size (ownHeader_short short run))
  · rw [forward]
    split_ifs with post
    · have empty : (s'.inArray array).input .client = [] := by
        by_contra more
        exact none ⟨post.2, decide_eq_true more⟩
      rw [bind_run, relayContent_idle empty]
      rfl
    · rfl

theorem tracks_relayRest {t : Target} {msg len : Int} :
    Tracks (fun scratch => relayRest (t.store scratch) msg len) (ownRelayRest t.method msg len) (fun _ n => n)
      {.server} s := by
  intro short
  refine (mirrors_header.bind fun r s' run => ?_) short
  obtain ⟨sum, content⟩ := r
  refine tracks_body (p := (2 ≤ msg.tdiv 100 ∧ msg ≠ 204 ∧ msg ≠ 304) ∧ decide (s'.input .server ≠ []) = true)
    (k := answer content msg len) (l := ownAnswer content len) (a := len) (by decide +kernel) (by decide +kernel)
    (by decide +kernel) (fun body same => ?_) (fun body array size => ?_) fun none same array => ?_
  · cases same with
    | true => exact mirrors_pure
    | false =>
      rw [answer, ownAnswer, if_pos ⟨rfl, body.1⟩, if_neg (by simp)]
      exact mirrors_content.bind fun _ _ _ => mirrors_pure
  · rw [answer, answer, if_neg (by simp), if_pos ⟨rfl, body.1⟩]
    refine Ne.symm ?_
    exact content_differs (of_decide_eq_true body.2) (inArray_length size (ownHeader_short short run))
  · rw [answer]
    split_ifs with head
    · have empty : (s'.inArray array).input .server = [] := by
        by_contra more
        exact none ⟨head.2, decide_eq_true more⟩
      rw [bind_run, relayContent_idle empty]
      rfl
    · rfl

theorem mirrors_dial {connects : Bool} {hostname : List UInt8} {port : Int} :
    Mirrors (openServerfd connects hostname port) (openServerfd connects hostname port) s :=
  fun short => ⟨short, fun _ => rfl⟩

theorem openServerfd_buf {connects connected : Bool} {hostname : List UInt8} {port : Int}
    (run : openServerfd connects hostname port s = .ok connected s') : s'.buf = s.buf := by
  cases run
  rfl

/-- A string that ends in its array is read back. -/
theorem cstring_overwrite {buf text : List UInt8} : cstring (overwrite buf (text ++ [0])) = cstring text := by
  unfold cstring overwrite
  rw [List.append_assoc, List.takeWhile_append]
  split
  · next whole =>
    have all : text.takeWhile (· ≠ 0) = text := (List.takeWhile_prefix _).eq_of_length whole
    rw [all, List.singleton_append, List.takeWhile_cons]
    simp
  · rfl

/-- The request half. -/
theorem tracks_sendRequest {connects : Bool} : Tracks (fun scratch => sendRequest scratch connects)
    (ownSendRequest connects) (fun scratch => Option.map fun t => t.store scratch) {.client} s := by
  refine mirrors_readline.bind fun len s' run => .ite (fun _ => ?_) fun _ => tracks_pure fun _ => rfl
  refine (mirrors_scan local_parseRequest goesOn_parseRequest).bind fun r t same => ?_
  obtain rfl := scanBuf_ok same
  cases r with
  | none => exact tracks_pure fun _ => rfl
  | some target =>
    have name : ∀ scratch, cstring (target.store scratch).hostname = cstring target.hostname :=
      fun _ => cstring_overwrite
    simp only [name]
    refine mirrors_dial.bind fun connected t same => .ite (fun _ => ?_) fun _ => tracks_pure fun _ => rfl
    have received : len.toNat ≤ t.buf.length := by
      rw [openServerfd_buf same]
      exact ownReadline_received run
    refine (mirrors_writebuf received).bind fun n t' wrote => ?_
    exact tracks_sendRest.bind (fun _ _ _ _ _ => rfl) subset_rfl fun _ _ _ => tracks_pure fun _ => rfl

/-- The response half. -/
theorem tracks_relayResponse {t : Target} : Tracks (fun scratch => relayResponse (t.store scratch))
    (ownRelayResponse t.method) (fun _ n => n) {.server} s := by
  refine mirrors_readline.bind fun len s' run => .ite (fun _ => ?_) fun _ => tracks_pure fun _ => rfl
  refine (mirrors_scan local_parseResponse goesOn_parseResponse).bind fun msg t' same => ?_
  obtain rfl := scanBuf_ok same
  exact (mirrors_writebuf (ownReadline_received run)).bind fun _ _ _ => tracks_relayRest

theorem tracks_writeLog {t : Target} {sum : Int} : Tracks
    (fun scratch => if sum ≠ 0 then writeLog (cstring (t.store scratch).uri) sum else pure ())
    (if sum ≠ 0 then writeLog (cstring t.uri) sum else pure ()) (fun _ u => u) {.server} s := by
  have uri : ∀ scratch, cstring (t.store scratch).uri = cstring t.uri := fun _ => cstring_overwrite
  simp only [uri]
  exact .ite (fun _ => fun short => ⟨short, fun _ => rfl⟩) fun _ => tracks_pure fun _ => rfl

/-- The response half with its log entry. -/
theorem tracks_answer {t : Target} : Tracks
    (fun scratch => do
      let sum ← relayResponse (t.store scratch)
      if sum ≠ 0 then writeLog (cstring (t.store scratch).uri) sum else pure ())
    (do
      let sum ← ownRelayResponse t.method
      if sum ≠ 0 then writeLog (cstring t.uri) sum else pure ()) (fun _ u => u) {.server} s := by
  refine tracks_relayResponse.bind (fun side _ scratch sum s => ?_) subset_rfl fun sum s' _ => tracks_writeLog
  split_ifs <;> rfl

/-- What the response half leaves for the client's stream. -/
theorem answer_client (parsed : Parsed) (t : Conn) :
    (finalState ((do
      let sum ← relayResponse parsed
      if sum ≠ 0 then writeLog (cstring parsed.uri) sum else pure () : Thread Unit) t)).input .client =
      t.input .client := by
  have framed := frames_relayResponse parsed t
  rw [bind_run]
  cases run : relayResponse parsed t with
  | error fault t' =>
    rw [run] at framed
    exact framed.input .client (by decide)
  | ok sum t' =>
    rw [run] at framed
    simp only
    split_ifs
    · exact framed.input .client (by decide)
    · exact framed.input .client (by decide)

theorem tracks_process {connects : Bool} :
    Tracks (fun scratch => process scratch connects) (ownProcess connects) (fun _ u => u) Set.univ s := by
  refine tracks_sendRequest.bind (fun side mem scratch r t => ?_) (Set.subset_univ _) fun r s' _ => ?_
  · obtain rfl : side = .client := mem
    cases r with
    | none => rfl
    | some parsed => exact answer_client parsed t
  · cases r with
    | none => exact tracks_pure fun _ => rfl
    | some t => exact tracks_answer.mono (Set.subset_univ _)

theorem behaviour_ok {u : Unit} (run : process scratch net.connects (net.fresh.inArray scratch.buf.bytes) = .ok u s) :
    net.behaviour scratch = (none, s.withBuf []) := by
  have start : process scratch net.connects (net.start scratch) = .ok u s := run
  rw [Net.behaviour, start]

theorem behaviour_error {fault : Fault}
    (run : process scratch net.connects (net.fresh.inArray scratch.buf.bytes) = .error fault s) :
    net.behaviour scratch = (some fault, s.withBuf []) := by
  have start : process scratch net.connects (net.start scratch) = .error fault s := run
  rw [Net.behaviour, start]

/-- What is left to be read is part of the behaviour. -/
theorem behaviour_input {side : Side} : (net.behaviour scratch).2.input side =
    (finalState (process scratch net.connects (net.fresh.inArray scratch.buf.bytes))).input side := by
  cases run : process scratch net.connects (net.fresh.inArray scratch.buf.bytes) with
  | ok u s =>
    rw [behaviour_ok run]
    rfl
  | error fault s =>
    rw [behaviour_error run]
    rfl

/-- The proxy goes by what it has received just if every scan ends within the bytes received. -/
theorem ownBytes_iff (net : Net) : net.OwnBytes ↔ net.Enough := by
  have tracks := @tracks_process net.fresh net.connects (Nat.zero_le _)
  constructor
  · intro own s' beyond
    rw [beyond] at tracks
    rcases tracks with ⟨scratch, t, run⟩ | ⟨side, _, scratch, scratch', differ⟩
    · exact own.inside scratch (congrArg Prod.fst (behaviour_error run))
    · have same := congrArg (fun seen => seen.2.input side) (own.same scratch scratch')
      simp only [behaviour_input] at same
      exact differ same
  · intro enough
    -- without such a scan all runs end as the one on the received bytes
    obtain ⟨seen, all, other⟩ : ∃ seen, (∀ scratch, net.behaviour scratch = seen) ∧ seen.1 ≠ some .overrun := by
      cases run : ownProcess net.connects net.fresh with
      | ok u s' =>
        rw [run] at tracks
        exact ⟨(none, s'.withBuf []), fun scratch => (behaviour_ok (tracks.2 scratch)).trans rfl, nofun⟩
      | error fault s' =>
        have other : fault ≠ .overrun := fun beyond => enough s' (beyond ▸ run)
        rw [run] at tracks
        simp only [if_neg other] at tracks
        exact ⟨(some fault, s'.withBuf []), fun scratch => (behaviour_error (tracks scratch)).trans rfl,
          fun same => other (Option.some.inj same)⟩
    exact ⟨fun scratch scratch' => (all scratch).trans (all scratch').symm, fun scratch => by rwa [all]⟩

end Exchange

section Sample

theorem fill_overwrite {b : UInt8} {bytes : List UInt8} (short : bytes.length < maxLine) :
    ∃ t, overwrite (Buffer.fill b).bytes bytes = bytes ++ [b] ++ t := by
  obtain ⟨left, room⟩ : ∃ left, maxLine - bytes.length = left + 1 := ⟨maxLine - bytes.length - 1, by omega⟩
  refine ⟨List.replicate left b, ?_⟩
  rw [overwrite, Buffer.fill, List.drop_replicate, room, List.replicate_succ, List.append_assoc]
  rfl

/-- A request whose method is the start of POST. -/
def posRequest : Request := sample (ascii "POS") (by decide +kernel) (by decide +kernel)

theorem posRequest_isPost {b : UInt8} {post : Bool}
    (test : strncasecmp (ascii "POS" ++ [b]) (ascii "post") = some post) :
    isPost (overwrite (Scratch.fill b).method.bytes posRequest.method) = .ok post := by
  obtain ⟨t, bytes⟩ := @fill_overwrite b (ascii "POS") (by decide +kernel)
  change isPost (overwrite (Buffer.fill b).bytes (ascii "POS")) = _
  rw [bytes, isPost, strncasecmp, agrees_append test]
  rfl

/-- Whether the body of such a request is forwarded depends on what the array for the method held before. -/
theorem leftover_taken : (((posRequest.net [88]).exchange (.fill 0)).output .server).sent ≠
    (((posRequest.net [88]).exchange (.fill 116)).output .server).sent := by
  have other := @forwarded_bytes (posRequest.net [88]) (.fill 0) posRequest [88] rfl rfl nofun false
    (posRequest_isPost (by decide +kernel)) sample_plain sample_consistent sample_small
  have post := @forwarded_bytes (posRequest.net [88]) (.fill 116) posRequest [88] rfl rfl nofun true
    (posRequest_isPost (by decide +kernel)) sample_plain sample_consistent sample_small
  have declared : declaredLength posRequest.fields = some 1 := sample_declared
  rw [other, post, declared]
  simp

end Sample

end Splab.Proxy
