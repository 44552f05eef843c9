import Splab.Shell.Tsh

namespace Splab.Shell

/-- An argument as it is typed. -/
inductive Arg
  | quoted (text : List Char)
  | bare (text : List Char)
  deriving DecidableEq, Repr

def Arg.text : Arg → List Char
  | quoted text | bare text => text

def Arg.shown : Arg → List Char
  | quoted text => '\'' :: (text ++ ['\''])
  | bare text => text

/-- The argument with the delimiter that ends it. -/
def Arg.closed : Arg → List Char
  | quoted text => '\'' :: (text ++ ['\''])
  | bare text => text ++ [' ']

def Arg.Valid : Arg → Prop
  | quoted text => '\'' ∉ text
  | bare text => text ≠ [] ∧ ' ' ∉ text ∧ text.head? ≠ some '\''

instance : DecidablePred Arg.Valid := fun arg => match arg with
  | .quoted text => inferInstanceAs (Decidable ('\'' ∉ text))
  | .bare text => inferInstanceAs (Decidable (text ≠ [] ∧ ' ' ∉ text ∧ text.head? ≠ some '\''))

/-- The buffer begins with these complete arguments, each after any number of spaces, and
goes on with `rest`. -/
inductive Begins : List Arg → List Char → List Char → Prop
  | nil {buf} : Begins [] buf buf
  | cons {arg args gap buf rest} (valid : arg.Valid) (later : Begins args buf rest) :
    Begins (arg :: args) (List.replicate gap ' ' ++ (arg.closed ++ buf)) rest

/-- The buffer of `parseline` after the trailing newline was replaced. -/
def lineBuf (cmdline : List Char) : List Char := cmdline.dropLast ++ [' ']

/-- What the loop of `parseline` makes of a buffer. -/
def tokens (buf : List Char) : List (List Char) := parseArgs ((skipSpaces buf).length + 1) (skipSpaces buf)

theorem splitLine_eq (cmdline : List Char) : splitLine cmdline = tokens (lineBuf cmdline) := rfl

section Tokens
variable {arg : Arg} {args : List Arg} {buf rest text : List Char} {gap n : Nat}

theorem skipSpaces_replicate : skipSpaces (List.replicate gap ' ' ++ buf) = skipSpaces buf := by
  induction gap with
  | zero => rfl
  | succ gap ih => exact ih

theorem tokens_replicate : tokens (List.replicate gap ' ' ++ buf) = tokens buf := by
  rw [tokens, tokens, skipSpaces_replicate]

theorem skipSpaces_eq_self (start : buf.head? ≠ some ' ') : skipSpaces buf = buf := by
  cases buf with
  | nil => rfl
  | cons c rest =>
    have other : c ≠ ' ' := fun same => start (by rw [same]; rfl)
    exact List.dropWhile_cons_of_neg (by simpa using other)

/-- The delimiter of an argument is the first one behind it. -/
theorem cut_delim {delim : Char} (absent : delim ∉ text) (rest : List Char) :
    (text ++ delim :: rest).takeWhile (· ≠ delim) = text ∧
      (text ++ delim :: rest).dropWhile (· ≠ delim) = delim :: rest := by
  have all : ∀ c ∈ text, decide (c ≠ delim) = true := fun c mem => by
    simp only [decide_eq_true_eq]
    rintro rfl
    exact absent mem
  constructor
  · rw [List.takeWhile_append_of_pos all, List.takeWhile_cons_of_neg (by simp), List.append_nil]
  · rw [List.dropWhile_append_of_pos all, List.dropWhile_cons_of_neg (by simp)]

theorem Arg.closed_head (valid : arg.Valid) : (arg.closed ++ rest).head? ≠ some ' ' := by
  cases arg with
  | quoted text => simp [closed]
  | bare text =>
    obtain ⟨nonempty, absent, _⟩ := valid
    obtain ⟨c, more, rfl⟩ := List.exists_cons_of_ne_nil nonempty
    have other : c ≠ ' ' := fun same => absent (by simp [same])
    simpa [closed] using other

theorem nextArg_quote : nextArg ('\'' :: buf) =
    if '\'' ∈ buf then some (buf.takeWhile (· ≠ '\''), (buf.dropWhile (· ≠ '\'')).tail) else none := by
  unfold nextArg
  simp only [List.head?_cons, if_true, List.tail_cons]

theorem nextArg_bare (other : buf.head? ≠ some '\'') : nextArg buf =
    if ' ' ∈ buf then some (buf.takeWhile (· ≠ ' '), (buf.dropWhile (· ≠ ' ')).tail) else none := by
  unfold nextArg
  simp only [if_neg other]

theorem nextArg_closed (valid : arg.Valid) : nextArg (arg.closed ++ rest) = some (arg.text, rest) := by
  cases arg with
  | quoted text =>
    have shape : (Arg.quoted text).closed ++ rest = '\'' :: (text ++ '\'' :: rest) := by simp [Arg.closed]
    obtain ⟨taken, left⟩ := cut_delim valid rest
    rw [shape, nextArg_quote, if_pos (by simp), taken, left]
    rfl
  | bare text =>
    have shape : (Arg.bare text).closed ++ rest = text ++ ' ' :: rest := by simp [Arg.closed]
    obtain ⟨nonempty, absent, start⟩ := valid
    obtain ⟨taken, left⟩ := cut_delim absent rest
    rw [shape, nextArg_bare (by rwa [List.head?_append_of_ne_nil _ nonempty]), if_pos (by simp), taken, left]
    rfl

/-- What a round takes is a complete argument. -/
theorem nextArg_eq_some (next : nextArg buf = some (text, rest)) (start : buf.head? ≠ some ' ') :
    ∃ arg : Arg, arg.Valid ∧ arg.text = text ∧ buf = arg.closed ++ rest := by
  by_cases quote : buf.head? = some '\''
  · obtain ⟨tail, rfl⟩ := List.head?_eq_some_iff.mp quote
    rw [nextArg_quote] at next
    split at next
    · next inside =>
      obtain ⟨before, more, rfl, absent⟩ := List.eq_append_cons_of_mem inside
      obtain ⟨taken, left⟩ := cut_delim absent more
      rw [taken, left] at next
      cases next
      exact ⟨.quoted text, absent, rfl, by simp [Arg.closed]⟩
    · cases next
  · rw [nextArg_bare quote] at next
    split at next
    · next inside =>
      obtain ⟨before, more, rfl, absent⟩ := List.eq_append_cons_of_mem inside
      obtain ⟨taken, left⟩ := cut_delim absent more
      rw [taken, left] at next
      cases next
      have nonempty : text ≠ [] := by
        rintro rfl
        exact start rfl
      rw [List.head?_append_of_ne_nil _ nonempty] at quote
      exact ⟨.bare text, ⟨nonempty, absent, quote⟩, rfl, by simp [Arg.closed]⟩
    · cases next

/-- A round of the loop. -/
theorem tokens_eq : tokens buf = match nextArg (skipSpaces buf) with
    | some (arg, rest) => arg :: tokens rest
    | none => [] := by
  rw [tokens, parseArgs]
  cases next : nextArg (skipSpaces buf) with
  | none => rfl
  | some pair =>
    obtain ⟨arg, rest⟩ := pair
    have less := nextArg_length next
    have short : (skipSpaces rest).length ≤ rest.length := List.length_dropWhile_le ..
    have enough : (skipSpaces rest).length < (skipSpaces buf).length := by omega
    simp only [tokens, parseArgs_enough enough]

theorem tokens_closed (valid : arg.Valid) : tokens (arg.closed ++ rest) = arg.text :: tokens rest := by
  rw [tokens_eq, skipSpaces_eq_self (arg.closed_head valid), nextArg_closed valid]

theorem Begins.tokens (begins : Begins args buf rest) : tokens buf = args.map Arg.text ++ Shell.tokens rest := by
  induction begins with
  | nil => rfl
  | cons valid _ ih => rw [tokens_replicate, tokens_closed valid, ih, List.map_cons, List.cons_append]

theorem skipSpaces_append (buf : List Char) : ∃ gap, buf = List.replicate gap ' ' ++ skipSpaces buf := by
  have blank : ∀ c ∈ buf.takeWhile (· = ' '), c = ' ' := fun c mem => by simpa using List.mem_takeWhile_imp mem
  refine ⟨(buf.takeWhile (· = ' ')).length, ?_⟩
  rw [← List.eq_replicate_of_mem blank]
  exact (List.takeWhile_append_dropWhile ..).symm

theorem skipSpaces_head : (skipSpaces buf).head? ≠ some ' ' := by
  intro head
  have stop := List.head?_dropWhile_not (fun c => decide (c = ' ')) buf
  rw [show buf.dropWhile (fun c => decide (c = ' ')) = skipSpaces buf from rfl, head] at stop
  simp at stop

/-- Every buffer is cut into complete arguments as far as there are any. -/
theorem begins_all (buf : List Char) : ∃ args rest, Begins args buf rest ∧ tokens buf = args.map Arg.text := by
  induction length : buf.length using Nat.strong_induction_on generalizing buf with
  | _ n ih =>
    subst length
    cases next : nextArg (skipSpaces buf) with
    | none => exact ⟨[], buf, .nil, by rw [tokens_eq, next]; rfl⟩
    | some pair =>
      obtain ⟨text, rest⟩ := pair
      obtain ⟨gap, whole⟩ := skipSpaces_append buf
      have less := nextArg_length next
      have short : (skipSpaces buf).length ≤ buf.length := List.length_dropWhile_le ..
      obtain ⟨arg, valid, rfl, split⟩ := nextArg_eq_some next skipSpaces_head
      obtain ⟨args, last, begins, all⟩ := ih rest.length (by omega) rest rfl
      refine ⟨arg :: args, last, ?_, ?_⟩
      · rw [whole, split]
        exact .cons valid begins
      · rw [tokens_eq, next, List.map_cons, ← all]

theorem Begins.take (begins : Begins args buf rest) (n : Nat) : ∃ mid, Begins (args.take n) buf mid := by
  induction begins generalizing n with
  | nil => exact ⟨_, by rw [List.take_nil]; exact .nil⟩
  | cons valid _ ih =>
    cases n with
    | zero => exact ⟨_, .nil⟩
    | succ n =>
      obtain ⟨mid, later⟩ := ih n
      exact ⟨mid, .cons valid later⟩

/-- There are `n` tokens if the buffer begins with `n` complete arguments. -/
theorem le_length_tokens : n ≤ (tokens buf).length ↔ ∃ args rest, args.length = n ∧ Begins args buf rest := by
  constructor
  · intro many
    obtain ⟨args, rest, begins, all⟩ := begins_all buf
    rw [all, List.length_map] at many
    obtain ⟨mid, first⟩ := begins.take n
    exact ⟨args.take n, mid, List.length_take_of_le many, first⟩
  · rintro ⟨args, rest, rfl, begins⟩
    rw [begins.tokens, List.length_append, List.length_map]
    omega

end Tokens

/-- The stores of the loop of `parseline` into `argv`, from the index `argc` on. -/
def argStores : Nat → List (List Char) → List (Nat × Option (List Char))
  | _, [] => []
  | argc, arg :: rest => (argc, some arg) :: argStores (argc + 1) rest

/-- All stores of `parseline`: index and string, with `none` for NULL. -/
def argvStores (cmdline : List Char) : List (Nat × Option (List Char)) :=
  let args := splitLine cmdline
  argStores 0 args ++ (args.length, none) ::
    match args.getLast? with
    | some last => if last.head? = some '&' then [(args.length - 1, none)] else []
    | none => []

/-- The array after some stores. -/
def argvAfter (argv : Nat → Option (List Char)) (stores : List (Nat × Option (List Char))) : Nat → Option (List Char) :=
  stores.foldl (fun argv store => Function.update argv store.1 store.2) argv

section Argv
variable {cmdline : List Char} {argv : Nat → Option (List Char)} {args : List (List Char)} {i n : Nat}

theorem argvAfter_args : argvAfter argv (argStores n args) i =
    if n ≤ i ∧ i < n + args.length then args[i - n]? else argv i := by
  induction args generalizing n argv with
  | nil =>
    have outside : ¬(n ≤ i ∧ i < n + ([] : List (List Char)).length) := by simp
    rw [if_neg outside]
    rfl
  | cons arg rest ih =>
    have step : argvAfter argv (argStores n (arg :: rest)) =
        argvAfter (Function.update argv n (some arg)) (argStores (n + 1) rest) := rfl
    rw [step, ih, List.length_cons]
    rcases Nat.lt_trichotomy i n with low | rfl | high
    · rw [if_neg (by omega), if_neg (by omega), Function.update_of_ne (by omega)]
    · rw [if_neg (by omega), if_pos (by omega), Function.update_self, Nat.sub_self, List.getElem?_cons_zero]
    · obtain ⟨d, rfl⟩ : ∃ d, i = n + d + 1 := ⟨i - n - 1, by omega⟩
      rw [Function.update_of_ne (by omega), show n + d + 1 - (n + 1) = d by omega,
        show n + d + 1 - n = d + 1 by omega, List.getElem?_cons_succ]
      exact if_congr (by omega) rfl rfl

theorem parseline_concat {front : List (List Char)} {last : List Char} (whole : splitLine cmdline = front ++ [last]) :
    parseline cmdline = if last.head? = some '&' then (true, front) else (false, front ++ [last]) := by
  simp [parseline, whole]

/-- After `parseline` the array holds the strings of the argument list, and NULL behind them. -/
theorem argvAfter_stores (argv : Nat → Option (List Char)) (cmdline : List Char) :
    (∀ i < (parseline cmdline).2.length, argvAfter argv (argvStores cmdline) i = (parseline cmdline).2[i]?) ∧
      argvAfter argv (argvStores cmdline) (parseline cmdline).2.length = none := by
  have start : ∀ i < (splitLine cmdline).length,
      argvAfter argv (argStores 0 (splitLine cmdline)) i = (splitLine cmdline)[i]? := by
    intro i low
    rw [argvAfter_args, if_pos (by omega), Nat.sub_zero]
  rcases List.eq_nil_or_concat' (splitLine cmdline) with none | ⟨front, last, whole⟩
  · have stores : argvStores cmdline = [(0, Option.none)] := by simp [argvStores, none, argStores]
    simp [parseline, none, stores, argvAfter]
  · rw [whole] at start
    by_cases amp : last.head? = some '&'
    · have stores : argvStores cmdline =
          argStores 0 (front ++ [last]) ++ [(front.length + 1, none), (front.length, none)] := by
        simp [argvStores, whole, amp]
      have strings : (parseline cmdline).2 = front := by rw [parseline_concat whole, if_pos amp]
      rw [strings, stores, argvAfter, List.foldl_append]
      refine ⟨fun i low => ?_, Function.update_self _ _ _⟩
      have at' := start i (by rw [List.length_append]; omega)
      rw [List.getElem?_append_left low] at at'
      refine ((Function.update_of_ne (by omega) _ _).trans (Function.update_of_ne (by omega) _ _)).trans at'
    · have stores : argvStores cmdline = argStores 0 (front ++ [last]) ++ [((front ++ [last]).length, none)] := by
        simp [argvStores, whole, amp]
      have strings : (parseline cmdline).2 = front ++ [last] := by rw [parseline_concat whole, if_neg amp]
      rw [strings, stores, argvAfter, List.foldl_append]
      exact ⟨fun i low => (Function.update_of_ne (by omega) _ _).trans (start i low), Function.update_self _ _ _⟩

theorem argStores_index {store : Nat × Option (List Char)} (mem : store ∈ argStores n args) :
    store.1 < n + args.length := by
  induction args generalizing n with
  | nil => cases mem
  | cons arg rest ih =>
    rw [List.length_cons]
    rcases List.mem_cons.mp mem with rfl | later
    · simp only
      omega
    · have := ih later
      omega

/-- The largest index that `parseline` stores to is that of the terminating NULL. -/
theorem argvStores_inside : (∀ store ∈ argvStores cmdline, store.1 < n) ↔ (splitLine cmdline).length < n := by
  constructor
  · intro all
    exact all ((splitLine cmdline).length, none) (List.mem_append_right _ List.mem_cons_self)
  · intro few store mem
    rcases List.mem_append.mp mem with loop | later
    · have := argStores_index loop
      omega
    · rcases List.mem_cons.mp later with rfl | amp
      · exact few
      · split at amp
        · split at amp
          · obtain rfl := List.mem_singleton.mp amp
            simp only
            omega
          · cases amp
        · cases amp

end Argv

section Bounds
variable {cmdline : List Char} {n : Nat}

theorem splitLine_lt : (splitLine cmdline).length < n ↔
    ¬∃ args rest, args.length = n ∧ Begins args (lineBuf cmdline) rest := by
  rw [splitLine_eq, ← le_length_tokens, not_le]

/-- `parseline` stays inside `argv` unless the line begins with as many complete arguments as
the array has entries: the terminating NULL does not fit then. -/
theorem argvStores_maxArgs_iff (cmdline : List Char) : (∀ store ∈ argvStores cmdline, store.1 < maxArgs) ↔
    ¬∃ args rest, args.length = maxArgs ∧ Begins args (lineBuf cmdline) rest :=
  argvStores_inside.trans splitLine_lt

/-- A line of 128 words of one letter. -/
def manyWords : List Char := (List.replicate 128 ['a', ' ']).flatten ++ ['\n']

theorem argvStores_outside : ¬∀ cmdline, ReadableLine cmdline → ∀ store ∈ argvStores cmdline, store.1 < maxArgs := by
  intro inside
  have few := argvStores_inside.mp (inside manyWords (by decide +kernel))
  exact absurd few (by decide +kernel)

theorem bgfgTarget_ne_crashed {jobs : Jobs} {fg : Bool} {argv : List (List Char)} {crash : Crash} :
    bgfgTarget jobs fg argv ≠ .crashed crash := by
  unfold bgfgTarget
  split
  · simp
  · split_ifs <;> dsimp only <;> split_ifs <;> (try split) <;> simp

/-- A command word is left if there is a first string, and it is not the only one and taken for the `&`. -/
theorem parseline_head : (parseline cmdline).2.head? ≠ none ↔ ∃ first, (splitLine cmdline).head? = some first ∧
    (first.head? = some '&' → 2 ≤ (splitLine cmdline).length) := by
  rcases List.eq_nil_or_concat' (splitLine cmdline) with none | ⟨front, last, whole⟩
  · simp [parseline, none]
  · rw [parseline_concat whole, whole]
    by_cases amp : last.head? = some '&'
    · rw [if_pos amp]
      cases front with
      | nil => simp [amp]
      | cons first front => simp
    · rw [if_neg amp]
      cases front with
      | nil => simp [amp]
      | cons first front => simp

theorem evalStart_ne_crashed : (∀ jobs crash, evalStart jobs cmdline ≠ .crashed crash) ↔
    (parseline cmdline).2.head? ≠ none ∧ (splitLine cmdline).length < maxArgs := by
  constructor
  · intro runs
    have run := runs initjobs
    unfold evalStart at run
    simp only at run
    split at run
    · exact absurd rfl (run .overrun)
    · next few =>
      refine ⟨fun none => ?_, by omega⟩
      rw [none] at run
      exact run .nullArgv rfl
  · rintro ⟨word, few⟩ jobs crash
    unfold evalStart
    simp only
    rw [if_neg (by omega)]
    split
    · next none => exact absurd none word
    · split_ifs
      · simp
      · simp
      · exact bgfgTarget_ne_crashed
      · simp

/-- A line does not crash the shell before execution if it begins with a complete argument that
is not taken for the `&` at its end, and with fewer complete arguments than `argv` has entries. -/
theorem evalStart_runs_iff (cmdline : List Char) : (∀ jobs crash, evalStart jobs cmdline ≠ .crashed crash) ↔
    (∃ first, (∃ rest, Begins [first] (lineBuf cmdline) rest) ∧
      (first.text.head? = some '&' → ∃ second rest, Begins [first, second] (lineBuf cmdline) rest)) ∧
    ¬∃ args rest, args.length = maxArgs ∧ Begins args (lineBuf cmdline) rest := by
  rw [evalStart_ne_crashed, splitLine_lt, parseline_head, splitLine_eq]
  refine and_congr_left fun _ => ?_
  constructor
  · rintro ⟨first, head, more⟩
    obtain ⟨args, rest, begins, all⟩ := begins_all (lineBuf cmdline)
    rw [all] at head more
    rcases args with _ | ⟨arg, _ | ⟨second, args⟩⟩
    · cases head
    · cases head
      exact ⟨arg, ⟨rest, begins⟩, fun amp => absurd (more amp) (by simp)⟩
    · cases head
      obtain ⟨mid, two⟩ := begins.take 2
      obtain ⟨mid', one⟩ := begins.take 1
      exact ⟨arg, ⟨mid', one⟩, fun _ => ⟨second, mid, two⟩⟩
  · rintro ⟨first, ⟨rest, begins⟩, more⟩
    refine ⟨first.text, by rw [begins.tokens]; rfl, fun amp => ?_⟩
    obtain ⟨second, rest', both⟩ := more amp
    exact le_length_tokens.mpr ⟨_, rest', rfl, both⟩

/-- The blank line. -/
theorem evalStart_crashes :
    ¬∀ cmdline, ReadableLine cmdline → ∀ jobs crash, evalStart jobs cmdline ≠ .crashed crash := by
  intro runs
  exact runs ['\n'] (by decide) initjobs .nullArgv rfl

end Bounds

/-- Arguments as they are typed, each after a number of spaces. -/
def renderArgs : List (Nat × Arg) → List Char
  | [] => []
  | (gap, arg) :: more => List.replicate gap ' ' ++ (arg.shown ++ renderArgs more)

/-- The `&` at the end, if there is one, with the spaces before it. -/
def renderAmp : Option Nat → List Char
  | none => []
  | some gap => List.replicate gap ' ' ++ ['&']

def renderLine (items : List (Nat × Arg)) (amp : Option Nat) : List Char := renderArgs items ++ renderAmp amp ++ ['\n']

/-- A list of arguments that can be typed: spaces separate them, `argv` has room for them, and
the last one is not taken for the `&`. -/
structure Typed (items : List (Nat × Arg)) (amp : Option Nat) : Prop where
  nonempty : items ≠ []
  few : items.length + 2 ≤ maxArgs
  valid : ∀ item ∈ items, item.2.Valid
  spaced : ∀ item ∈ items.tail, 1 ≤ item.1
  ampSpaced : ∀ gap ∈ amp, 1 ≤ gap
  last : ∀ item ∈ items.getLast?, item.2.text.head? ≠ some '&'

section RoundTrip
variable {arg : Arg} {buf : List Char} {items : List (Nat × Arg)} {amp : Option Nat} {gap : Nat}

theorem tokens_shown (valid : arg.Valid) : tokens (List.replicate gap ' ' ++ (arg.shown ++ ' ' :: buf)) =
    arg.text :: tokens (' ' :: buf) := by
  rw [tokens_replicate]
  cases arg with
  | quoted text => exact tokens_closed valid
  | bare text =>
    have shape : (Arg.bare text).shown ++ ' ' :: buf = (Arg.bare text).closed ++ buf := by simp [Arg.shown, Arg.closed]
    have blank : tokens (' ' :: buf) = tokens buf := @tokens_replicate buf 1
    rw [shape, tokens_closed valid, blank]

theorem renderArgs_blank (spaced : ∀ item ∈ items, 1 ≤ item.1) : ∃ buf, renderArgs items ++ [' '] = ' ' :: buf := by
  cases items with
  | nil => exact ⟨[], rfl⟩
  | cons item more =>
    obtain ⟨gap, arg⟩ := item
    obtain ⟨less, rfl⟩ : ∃ less, gap = less + 1 :=
      ⟨gap - 1, by have := spaced _ List.mem_cons_self; simp only at this; omega⟩
    exact ⟨_, rfl⟩

theorem tokens_renderArgs (valid : ∀ item ∈ items, item.2.Valid) (spaced : ∀ item ∈ items.tail, 1 ≤ item.1) :
    tokens (renderArgs items ++ [' ']) = items.map fun item => item.2.text := by
  induction items with
  | nil => decide
  | cons item more ih =>
    obtain ⟨gap, arg⟩ := item
    obtain ⟨buf, blank⟩ := renderArgs_blank spaced
    have rest := ih (fun item mem => valid item (List.mem_cons_of_mem _ mem)) fun item mem =>
      spaced item (List.mem_of_mem_tail mem)
    rw [List.tail_cons] at blank
    rw [renderArgs, List.append_assoc, List.append_assoc, blank, tokens_shown (valid _ List.mem_cons_self), ← blank,
      rest]
    rfl

/-- The `&` is typed like a bare argument. -/
theorem renderArgs_amp : renderArgs items ++ renderAmp amp =
    renderArgs (items ++ (amp.map fun gap => (gap, Arg.bare ['&'])).toList) := by
  induction items with
  | nil => cases amp <;> simp [renderArgs, renderAmp, Arg.shown]
  | cons item more ih => simp [renderArgs, ← ih]

theorem splitLine_renderLine (typed : Typed items amp) : splitLine (renderLine items amp) =
    (items.map fun item => item.2.text) ++ (amp.map fun _ => ['&']).toList := by
  have line : lineBuf (renderLine items amp) =
      renderArgs (items ++ (amp.map fun gap => (gap, Arg.bare ['&'])).toList) ++ [' '] := by
    rw [lineBuf, renderLine, List.dropLast_concat, renderArgs_amp]
  have ampersand : (Arg.bare ['&']).Valid := by decide
  rw [splitLine_eq, line, tokens_renderArgs]
  · cases amp <;> simp [Arg.text]
  · intro item mem
    rcases List.mem_append.mp mem with inside | mem
    · exact typed.valid item inside
    · cases amp with
      | none => cases mem
      | some gap =>
        obtain rfl := List.mem_singleton.mp mem
        exact ampersand
  · intro item mem
    rw [List.tail_append_of_ne_nil typed.nonempty] at mem
    rcases List.mem_append.mp mem with inside | mem
    · exact typed.spaced item inside
    · cases amp with
      | none => cases mem
      | some gap =>
        obtain rfl := List.mem_singleton.mp mem
        exact typed.ampSpaced gap rfl

/-- `parseline` reads back what was typed: the strings in `argv` with NULL behind them, nothing
stored outside the array, and the result that tells whether there was an `&`. -/
theorem parseline_renderLine (typed : Typed items amp) (argv : Nat → Option (List Char)) :
    (parseline (renderLine items amp)).1 = amp.isSome ∧
      (∀ i (low : i < items.length), argvAfter argv (argvStores (renderLine items amp)) i = some items[i].2.text) ∧
      argvAfter argv (argvStores (renderLine items amp)) items.length = none ∧
      ∀ store ∈ argvStores (renderLine items amp), store.1 < maxArgs := by
  have strings := splitLine_renderLine typed
  obtain ⟨front, item, rfl⟩ := (List.eq_nil_or_concat' items).resolve_left typed.nonempty
  have other := typed.last item (by simp)
  have result : parseline (renderLine (front ++ [item]) amp) =
      (amp.isSome, (front ++ [item]).map fun item => item.2.text) := by
    cases amp with
    | none =>
      rw [List.map_append, List.map_singleton, Option.map_none, Option.toList_none, List.append_nil] at strings
      rw [parseline_concat strings, if_neg other]
      simp
    | some gap =>
      exact (parseline_concat strings).trans (if_pos rfl)
  obtain ⟨args, null⟩ := argvAfter_stores argv (renderLine (front ++ [item]) amp)
  rw [result] at args null ⊢
  rw [List.length_map] at args null
  refine ⟨rfl, fun i low => ?_, null, argvStores_inside.mpr ?_⟩
  · rw [args i low, List.getElem?_map, List.getElem?_eq_getElem low, Option.map_some]
  · have few := typed.few
    rw [strings]
    cases amp <;> simp at few ⊢ <;> omega

/-- ` cp 'a b' '' x   &` -/
def typedLine : List (Nat × Arg) :=
  [(1, .bare ['c', 'p']), (1, .quoted ['a', ' ', 'b']), (2, .quoted []), (1, .bare ['x'])]

theorem parseline_typedLine : (parseline (renderLine typedLine (some 3))).1 = true ∧
    (∀ i (low : i < typedLine.length),
      argvAfter (fun _ => none) (argvStores (renderLine typedLine (some 3))) i = some typedLine[i].2.text) ∧
    argvAfter (fun _ => none) (argvStores (renderLine typedLine (some 3))) typedLine.length = none ∧
    ∀ store ∈ argvStores (renderLine typedLine (some 3)), store.1 < maxArgs :=
  parseline_renderLine ⟨by decide, by decide, by decide, by decide, by decide, by decide⟩ fun _ => none

end RoundTrip

end Splab.Shell
