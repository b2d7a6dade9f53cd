import ObjectScript.Compiler.Bytecode
/-!
# Loading what was saved

`loadFromStream` reads what `saveToStream` wrote of a compiled text, field by field (`reads_saveToStream`).  Two things come
back different: a negative zero is written as the `int` 0, and the link to a function's parent is written as the index of
the parent scope among the functions of its own parent, where the reader takes it for an index of the program's functions.
-/
namespace ObjectScript
namespace Compiler
namespace Bytecode

open ByteReader (Reads fail check many)
open ObjectScript.Core (Double Single)
open ByteStream

/-- What the compiler asserts of a function before it writes it; numbers are `int`s. -/
structure Scope.WellFormed (c : Compiled) (f : Scope) : Prop where
  parent : ∀ p ∈ f.parent, p.funcIndex + 1 < 2 ^ 31
  stackSize : f.stackSize < 2 ^ 31
  numLocals : f.numLocals < 2 ^ 31
  numParams : f.numParams < 2 ^ 31
  maxUpCount : f.maxUpCount < 2 ^ 31
  funcDepth : f.funcDepth < 2 ^ 31
  funcIndex : f.funcIndex < 2 ^ 31
  numLocalFuncs : f.numLocalFuncs < 2 ^ 31
  numTryBlocks : f.tryBlocks.length < 2 ^ 31
  opcodes : f.opcodesPos + f.opcodesSize < 2 ^ 31
  localsCompiled : f.localsCompiled.length = f.numLocals
  locals : ∀ v ∈ f.localsCompiled, v.cachedNameIndex < c.progStrings.length ∧ f.opcodesPos ≤ v.startCodePos ∧
    v.startCodePos < f.opcodesPos + f.opcodesSize ∧ f.opcodesPos < v.endCodePos ∧
    v.endCodePos ≤ f.opcodesPos + f.opcodesSize
  tryBlocks : ∀ t ∈ f.tryBlocks, t.catchVarIndex < f.localsCompiled.length ∧ f.opcodesPos ≤ t.startCodePos ∧
    t.startCodePos < t.endCodePos ∧ t.endCodePos ≤ f.opcodesPos + f.opcodesSize

/-- A NaN of a compiled text is the result of an operator. -/
structure Compiled.WellFormed (c : Compiled) : Prop where
  numbers : c.progNumbers.length < 2 ^ 31
  nan : ∀ x ∈ c.progNumbers, x.isNaN = true → x.isQuietNaN = true
  strings : c.progStrings.length < 2 ^ 31
  string : ∀ str ∈ c.progStrings, str.length < 2 ^ 31
  functions : c.progFunctions.length < 2 ^ 31
  function : ∀ f ∈ c.progFunctions, f.WellFormed c
  opcodes : c.progOpcodes.length < 2 ^ 31
  opcode : ∀ op ∈ c.progOpcodes, op < 2 ^ 32
  debugInfo : c.progDebugInfo.length < 2 ^ 31
  debug : ∀ item ∈ c.progDebugInfo, item.line < 2 ^ 31 ∧ item.pos < 2 ^ 31
  filename : c.progFilenameStringIndex < c.progStrings.length

/-! ### The program that a compiled text is -/

def LocalVarCompiled.decl (strings : List (List UInt8)) (v : LocalVarCompiled) : LocalVar where
  name := strings[v.cachedNameIndex]?.getD []
  startCodePos := v.startCodePos
  endCodePos := v.endCodePos
  upvalue := v.upvalue

/-- The declaration of a function whose parent is the function `parent`. -/
def Scope.decl (strings : List (List UInt8)) (f : Scope) (parent : Int) : FunctionDecl where
  progParentFuncIndex := parent
  stackSize := f.stackSize
  numParams := f.numParams
  maxUpCount := f.maxUpCount
  funcDepth := f.funcDepth
  funcIndex := f.funcIndex
  numLocalFuncs := f.numLocalFuncs
  opcodesPos := f.opcodesPos
  opcodesSize := f.opcodesSize
  locals := f.localsCompiled.map (·.decl strings)
  tryBlocks := f.tryBlocks

/-- The index in the program of the function around `f`. -/
def Scope.parentFunction (f : Scope) : Int :=
  match f.parent with
  | some p => p.function
  | none => -1

def Compiled.toProgram (c : Compiled) (number : Double → Double) (parent : Scope → Int) : Program where
  filename := c.progStrings[c.progFilenameStringIndex]?.getD []
  numbers := c.progNumbers.map fun x => some (number x)
  strings := c.progStrings
  functions := c.progFunctions.map fun f => f.decl c.progStrings (parent f)
  opcodes := c.progOpcodes
  debugInfo := c.progDebugInfo

def Compiled.program (c : Compiled) : Program := c.toProgram id Scope.parentFunction

def loaded (x : Double) : Double := if x = Double.negZero then Double.zero false else x

/-! ### Numbers -/

/-- The bytes of a number in the group of the integers, if it is written there; so the other three. -/
def intBytes (x : Double) : Option (List UInt8) :=
  match numberCode x with
  | .int n => some (writeUVariable n)
  | _ => none

def floatBytes (x : Double) : Option (List UInt8) :=
  match numberCode x with
  | .float y => some (writeFloat y)
  | _ => none

def doubleBytes (x : Double) : Option (List UInt8) :=
  match numberCode x with
  | .double => some (writeDouble x)
  | _ => none

def longDoubleBytes (P : Platform) (x : Double) : Option (List UInt8) :=
  match numberCode x with
  | .longDouble => some (writeLongDouble P x)
  | _ => none

/-- One group of the numbers `xs`, the first of which has index `i`. -/
def collect (bytes : Double → Option (List UInt8)) : NumberStream → Nat → List Double → NumberStream
  | s, _, [] => s
  | s, i, x :: xs =>
    match bytes x with
    | some w => collect bytes (s.add i w) (i + 1) xs
    | none => collect bytes s (i + 1) xs

theorem writeNumbers_eq (P : Platform) : ∀ (xs : List Double) (s : NumberStreams) (i : Nat),
    writeNumbers P s i xs = ⟨collect intBytes s.int i xs, collect floatBytes s.float i xs,
      collect doubleBytes s.double i xs, collect (longDoubleBytes P) s.longDouble i xs⟩
  | [], s, i => rfl
  | x :: xs, s, i => by
    rw [writeNumbers, writeNumbers_eq P xs]
    unfold writeNumber
    simp only [collect, intBytes, floatBytes, doubleBytes, longDoubleBytes]
    cases numberCode x <;> rfl

def fill (bytes : Double → Option (List UInt8)) (xs : List Double) (values : List (Option Double)) : List (Option Double) :=
  List.zipWith (fun x v => if (bytes x).isSome then some (loaded x) else v) xs values

theorem length_fill {bytes : Double → Option (List UInt8)} {xs : List Double} {values : List (Option Double)}
    (h : values.length = xs.length) : (fill bytes xs values).length = xs.length := by
  rw [fill, List.length_zipWith, h, Nat.min_self]

/-- A group is read into the places its numbers came from. -/
theorem reads_collect {bytes : Double → Option (List UInt8)} {read : StreamReader Double} {N : Nat} (hN : N < 2 ^ 31) :
    ∀ (xs : List Double) (s : NumberStream) (front back : List (Option Double)),
      (∀ x ∈ xs, ∀ w, bytes x = some w → Reads read (loaded x) w) → back.length = xs.length → s.index ≤ front.length →
        front.length + xs.length ≤ N → ∃ k w, (collect bytes s front.length xs).count = s.count + k ∧
          (collect bytes s front.length xs).buffer = s.buffer ++ w ∧
            Reads (readNumbers read N k s.index (front ++ back)) (front ++ fill bytes xs back) w
  | [], s, front, back, _, hback, _, _ => by
    rw [List.eq_nil_of_length_eq_zero hback]
    exact ⟨0, [], rfl, (List.append_nil _).symm, Reads.pure _⟩
  | x :: xs, s, front, [], _, hback, _, _ => by cases hback
  | x :: xs, s, front, v :: back, hread, hback, hindex, hN' => by
    have hlen : (front ++ [v]).length = front.length + 1 := by rw [List.length_append, List.length_singleton]
    have hback' : back.length = xs.length := Nat.succ.inj hback
    have hrest : ∀ y ∈ xs, ∀ w, bytes y = some w → Reads read (loaded y) w :=
      fun y hy => hread y (List.mem_cons_of_mem _ hy)
    rw [List.length_cons] at hN'
    cases hx : bytes x with
    | none =>
      have ih := reads_collect hN xs s (front ++ [v]) back hrest hback' (by omega) (by omega)
      rw [hlen, List.append_assoc, List.append_assoc] at ih
      have hfill : fill bytes (x :: xs) (v :: back) = v :: fill bytes xs back := by
        simp only [fill, List.zipWith_cons_cons, hx, Option.isSome_none, Bool.false_eq_true, if_false]
      rw [collect, hx, hfill]
      exact ih
    | some w =>
      obtain ⟨k, w', hcount, hbuffer, hreads⟩ := reads_collect hN xs (s.add front.length w) (front ++ [some (loaded x)])
        back hrest hback' (by rw [List.length_append]; exact Nat.le_add_right _ _)
        (by rw [List.length_append, List.length_singleton]; omega)
      have hlen' : (front ++ [some (loaded x)]).length = front.length + 1 := by
        rw [List.length_append, List.length_singleton]
      have hfill : fill bytes (x :: xs) (v :: back) = some (loaded x) :: fill bytes xs back := by
        simp only [fill, List.zipWith_cons_cons, hx, Option.isSome_some, if_true]
      rw [hlen'] at hcount hbuffer
      rw [List.append_assoc, List.append_assoc] at hreads
      refine ⟨k + 1, writeUVariable (front.length - s.index) ++ (w ++ w'), ?_, ?_, ?_⟩
      · rw [collect, hx]
        show (collect bytes (s.add front.length w) (front.length + 1) xs).count = _
        rw [hcount, NumberStream.add, Nat.add_assoc, Nat.add_comm 1]
      · rw [collect, hx]
        show (collect bytes (s.add front.length w) (front.length + 1) xs).buffer = _
        rw [hbuffer, NumberStream.add, List.append_assoc, List.append_assoc]
      · have hsum : s.index + (front.length - s.index) = front.length := by omega
        have hset : (front ++ v :: back).set front.length (some (loaded x)) = front ++ some (loaded x) :: back := by
          rw [List.set_append_right _ _ (Nat.le_refl _), Nat.sub_self, List.set_cons_zero]
        rw [readNumbers, hfill]
        refine (reads_readUVariable (by omega)).bind ?_
        rw [hsum]
        refine (Reads.check _ (by omega)).bind_nil ((hread x List.mem_cons_self w hx).bind ?_)
        rw [hset]
        exact hreads

theorem numberCode_negZero : numberCode Double.negZero = .int 0 := rfl

theorem loaded_of_ne {x : Double} (h : ∀ n, numberCode x ≠ .int n) : loaded x = x :=
  if_neg fun hx => h 0 (by rw [hx, numberCode_negZero])

theorem reads_intBytes {x : Double} {w : List UInt8} (h : intBytes x = some w) : Reads readInt (loaded x) w := by
  unfold intBytes at h
  cases hc : numberCode x <;> rw [hc] at h
  case int n =>
    cases h
    unfold numberCode at hc
    split at hc
    · rename_i m hm
      cases hc
      split at hm
      · rename_i hpos
        have hread := (reads_readUVariable (Double.toInt_lt hm)).bind_pure Double.ofInt
        rw [Double.ofInt_toInt hm hpos] at hread
        exact hread
      · cases hm
    · split at hc
      · cases hc
      · split at hc <;> cases hc
  all_goals cases h

theorem reads_floatBytes {x : Double} {w : List UInt8} (h : floatBytes x = some w) :
    Reads (do return (← readFloat).widen : StreamReader Double) (loaded x) w := by
  unfold floatBytes at h
  cases hc : numberCode x <;> rw [hc] at h
  case float y =>
    cases h
    have hloaded : loaded x = x := loaded_of_ne fun n hn => by rw [hc] at hn; cases hn
    have hy : y.widen = x := by
      unfold numberCode at hc
      split at hc
      · cases hc
      · split at hc
        · rename_i z hz
          cases hc
          exact Double.widen_toFloat hz
        · split at hc <;> cases hc
    have hread := (reads_readFloat y).bind_pure Single.widen
    rw [hy] at hread
    rw [hloaded]
    exact hread
  all_goals cases h

theorem reads_doubleBytes {x : Double} {w : List UInt8} (h : doubleBytes x = some w) : Reads readDouble (loaded x) w := by
  unfold doubleBytes at h
  cases hc : numberCode x <;> rw [hc] at h
  case double =>
    cases h
    rw [loaded_of_ne fun n hn => by rw [hc] at hn; cases hn]
    exact reads_readDouble x
  all_goals cases h

theorem isNaN_of_longDouble {x : Double} (h : numberCode x = .longDouble) : x.isNaN = true := by
  unfold numberCode at h
  split at h
  · cases h
  · split at h
    · cases h
    · split at h
      · assumption
      · cases h

theorem reads_longDoubleBytes {P : Platform} {x : Double} (hnan : x.isNaN = true → x.isQuietNaN = true) {w : List UInt8}
    (h : longDoubleBytes P x = some w) : Reads (readLongDouble P) (loaded x) w := by
  unfold longDoubleBytes at h
  cases hc : numberCode x <;> rw [hc] at h
  case longDouble =>
    cases h
    rw [loaded_of_ne fun n hn => by rw [hc] at hn; cases hn]
    exact reads_readLongDouble P (hnan (isNaN_of_longDouble hc))
  all_goals cases h

theorem fill_all (P : Platform) : ∀ (xs : List Double) (values : List (Option Double)), values.length = xs.length →
    fill (longDoubleBytes P) xs (fill doubleBytes xs (fill floatBytes xs (fill intBytes xs values))) =
      xs.map fun x => some (loaded x)
  | [], values, h => by
    rw [List.eq_nil_of_length_eq_zero h]
    rfl
  | x :: xs, [], h => by cases h
  | x :: xs, v :: values, h => by
    have ih := fill_all P xs values (Nat.succ.inj h)
    simp only [fill, List.zipWith_cons_cons, List.map_cons] at ih ⊢
    rw [ih]
    congr 1
    unfold longDoubleBytes doubleBytes floatBytes intBytes
    cases numberCode x <;> rfl

/-! ### Strings, functions and debug info -/

theorem reads_unlimited (size : Nat) : Reads (malloc .unlimited size) () [] := reads_malloc rfl

theorem reads_writeStrings (P : Platform) : ∀ {strings : List (List UInt8)} (capacity : Nat),
    (∀ str ∈ strings, str.length < 2 ^ 31) →
      Reads (readStrings .unlimited P strings.length capacity) strings (strings.flatMap writeString)
  | [], _, _ => Reads.pure []
  | str :: strings, capacity, h => by
    have hrest := reads_writeStrings P (grownCapacity capacity str.length) fun s hs => h s (List.mem_cons_of_mem _ hs)
    rw [List.flatMap_cons, writeString, List.append_assoc]
    refine (reads_readUVariable (h str List.mem_cons_self)).bind ?_
    refine (reads_reserveCapacity fun _ => rfl).bind_nil ((reads_readBytes str).bind ?_)
    exact (reads_unlimited _).bind_nil (hrest.bind_pure (str :: ·))

theorem reads_constString {strings : List (List UInt8)} {i : Nat} (h : i < strings.length) :
    Reads (constString strings i) (strings[i]?.getD []) [] := by
  unfold constString
  rw [List.getElem?_eq_getElem h]
  exact Reads.pure _

theorem reads_writeLocal {strings : List (List UInt8)} {pos : Nat} {v : LocalVarCompiled}
    (hname : v.cachedNameIndex < strings.length) (hstrings : strings.length < 2 ^ 31) (hstart : pos ≤ v.startCodePos)
    (hstop : pos ≤ v.endCodePos) (hstart' : v.startCodePos < 2 ^ 31) (hstop' : v.endCodePos < 2 ^ 31) :
    Reads (readLocal strings pos) (v.decl strings) (writeLocal pos v) := by
  refine (reads_readUVariable (by omega)).bind ((reads_constString hname).bind_nil ?_)
  refine (reads_readUVariable (by omega)).bind ((reads_readUVariable (by omega)).bind ?_)
  have hread := (reads_readByte (UInt8.ofNat v.upvalue.toNat)).bind_pure fun upvalue =>
    ({ name := strings[v.cachedNameIndex]?.getD [], startCodePos := v.startCodePos - pos + pos,
       endCodePos := v.endCodePos - pos + pos, upvalue := upvalue != 0 } : LocalVar)
  have hup : (UInt8.ofNat v.upvalue.toNat != 0) = v.upvalue := by cases v.upvalue <;> rfl
  rw [Nat.sub_add_cancel hstart, Nat.sub_add_cancel hstop, hup] at hread
  rw [Nat.sub_add_cancel hstart, Nat.sub_add_cancel hstop]
  exact hread

theorem reads_writeTryBlock {pos : Nat} {t : TryBlock} (hstart : pos ≤ t.startCodePos) (hstop : pos ≤ t.endCodePos)
    (hstart' : t.startCodePos < 2 ^ 31) (hstop' : t.endCodePos < 2 ^ 31) (hvar : t.catchVarIndex < 2 ^ 31) :
    Reads (readTryBlock pos) t (writeTryBlock pos t) := by
  refine (reads_readUVariable (by omega)).bind ((reads_readUVariable (by omega)).bind ?_)
  rw [Nat.sub_add_cancel hstart, Nat.sub_add_cancel hstop]
  exact (reads_readUVariable hvar).bind_pure fun catchVarIndex =>
    ({ startCodePos := t.startCodePos, endCodePos := t.endCodePos, catchVarIndex } : TryBlock)

def Scope.loadedParent (f : Scope) : Int := (f.parentLink : Int) - 1

theorem reads_writeFunction (P : Platform) {c : Compiled} (hc : c.progStrings.length < 2 ^ 31) {f : Scope} (h : f.WellFormed c) :
    Reads (readFunction .unlimited P c.progStrings) (f.decl c.progStrings f.loadedParent) (writeFunction f) := by
  have hparent : f.parentLink < 2 ^ 31 := by
    unfold Scope.parentLink
    cases hp : f.parent with
    | none => decide
    | some p => exact h.parent p hp
  have hopcodes := h.opcodes
  have hlocals : Reads (many (readLocal c.progStrings f.opcodesPos) f.numLocals)
      (f.localsCompiled.map (·.decl c.progStrings)) (f.localsCompiled.flatMap (writeLocal f.opcodesPos)) := by
    rw [← h.localsCompiled]
    refine Reads.many fun v hv => ?_
    obtain ⟨hname, hstart, hstart', hstop, hstop'⟩ := h.locals v hv
    exact reads_writeLocal hname hc hstart (Nat.le_of_lt hstop) (by omega) (by omega)
  have htries : Reads (many (readTryBlock f.opcodesPos) f.tryBlocks.length) (f.tryBlocks.map id)
      (f.tryBlocks.flatMap (writeTryBlock f.opcodesPos)) := by
    refine Reads.many fun t ht => ?_
    obtain ⟨hvar, hstart, hlt, hstop⟩ := h.tryBlocks t ht
    have hnum := h.numLocals
    have hlen := h.localsCompiled
    show Reads (readTryBlock f.opcodesPos) t (writeTryBlock f.opcodesPos t)
    exact reads_writeTryBlock hstart (by omega) (by omega) (by omega) (by omega)
  rw [List.map_id] at htries
  refine (reads_readUVariable hparent).bind ((reads_readUVariable h.stackSize).bind ?_)
  refine (reads_readUVariable h.numLocals).bind ((reads_readUVariable h.numParams).bind ?_)
  refine (reads_readUVariable h.maxUpCount).bind ((reads_readUVariable h.funcDepth).bind ?_)
  refine (reads_readUVariable h.funcIndex).bind ((reads_readUVariable h.numLocalFuncs).bind ?_)
  refine (reads_readUVariable h.numTryBlocks).bind ((reads_readUVariable (by omega)).bind ?_)
  exact (reads_readUVariable (by omega)).bind ((reads_unlimited _).bind_nil (hlocals.bind
    ((reads_unlimited _).bind_nil (htries.bind_pure _))))

theorem reads_writeDebugInfo {item : DebugInfoItem} (hline : item.line < 2 ^ 31) (hpos : item.pos < 2 ^ 31) :
    Reads readDebugInfo item (writeDebugInfo item) :=
  (reads_readUVariable hline).bind ((reads_readUVariable hpos).bind_pure fun pos => ({ line := item.line, pos } : DebugInfoItem))

/-! ### The program -/

def NumberStreams.total (s : NumberStreams) : Nat := s.int.count + s.float.count + s.double.count + s.longDouble.count

theorem total_writeNumbers (P : Platform) : ∀ (xs : List Double) (s : NumberStreams) (i : Nat),
    (writeNumbers P s i xs).total = s.total + xs.length
  | [], s, i => rfl
  | x :: xs, s, i => by
    have hstep : (writeNumber P s i x).total = s.total + 1 := by
      unfold writeNumber NumberStreams.total NumberStream.add
      cases numberCode x <;> dsimp only <;> omega
    rw [writeNumbers, total_writeNumbers P xs, hstep, List.length_cons]
    omega

/-- The four groups of the numbers, read one after the other. -/
theorem reads_writeNumbers (P : Platform) {xs : List Double} (hlen : xs.length < 2 ^ 31)
    (hnan : ∀ x ∈ xs, x.isNaN = true → x.isQuietNaN = true) (streams : NumberStreams)
    (hstreams : streams = writeNumbers P .empty 0 xs) : ∃ ints floats doubles,
      Reads (readNumbers readInt xs.length streams.int.count 0 (List.replicate xs.length none)) ints streams.int.buffer ∧
      Reads (readNumbers (do return (← readFloat).widen) xs.length streams.float.count 0 ints) floats
        streams.float.buffer ∧
      Reads (readNumbers readDouble xs.length streams.double.count 0 floats) doubles streams.double.buffer ∧
      Reads (readNumbers (readLongDouble P) xs.length streams.longDouble.count 0 doubles)
        (xs.map fun x => some (loaded x)) streams.longDouble.buffer := by
  have hgroup : ∀ (bytes : Double → Option (List UInt8)) (read : StreamReader Double) (values : List (Option Double)),
      (∀ x ∈ xs, ∀ w, bytes x = some w → Reads read (loaded x) w) → values.length = xs.length →
        Reads (readNumbers read xs.length (collect bytes .empty 0 xs).count 0 values) (fill bytes xs values)
          (collect bytes .empty 0 xs).buffer := by
    intro bytes read values hread hvalues
    obtain ⟨k, w, hcount, hbuffer, hreads⟩ := reads_collect hlen xs .empty [] values hread hvalues (Nat.le_refl 0)
      (Nat.le_of_eq (Nat.zero_add _))
    rw [List.length_nil, NumberStream.empty, Nat.zero_add] at hcount
    rw [List.length_nil, NumberStream.empty, List.nil_append] at hbuffer
    rw [NumberStream.empty, hcount, hbuffer]
    exact hreads
  rw [hstreams, writeNumbers_eq, ← fill_all P xs _ List.length_replicate]
  refine ⟨fill intBytes xs (List.replicate xs.length none), _, _, hgroup _ _ _ ?_ ?_, hgroup _ _ _ ?_ ?_, hgroup _ _ _ ?_ ?_,
    hgroup _ _ _ ?_ ?_⟩
  · exact fun x _ w hw => reads_intBytes hw
  · exact List.length_replicate
  · exact fun x _ w hw => reads_floatBytes hw
  · exact length_fill List.length_replicate
  · exact fun x _ w hw => reads_doubleBytes hw
  · exact length_fill (length_fill List.length_replicate)
  · exact fun x hx w hw => reads_longDoubleBytes (hnan x hx) hw
  · exact length_fill (length_fill (length_fill List.length_replicate))

theorem reads_saveToStream (P : Platform) {c : Compiled} (h : c.WellFormed) :
    Reads (loadFromStream .unlimited P) (some (c.toProgram loaded Scope.loadedParent)) (saveToStream P c) := by
  unfold saveToStream
  generalize hstreams : writeNumbers P .empty 0 c.progNumbers = streams
  obtain ⟨ints, floats, doubles, hints, hfloats, hdoubles, hlongDoubles⟩ :=
    reads_writeNumbers P h.numbers h.nan streams hstreams.symm
  have htotal : streams.int.count + streams.float.count + streams.double.count + streams.longDouble.count =
      c.progNumbers.length := by
    have htotal := total_writeNumbers P c.progNumbers .empty 0
    rw [hstreams] at htotal
    exact htotal.trans (Nat.zero_add _)
  have hnumbers := h.numbers
  have hstrings := reads_writeStrings P 0 h.string
  have hfunctions : Reads (many (readFunction .unlimited P c.progStrings) c.progFunctions.length)
      (c.progFunctions.map fun f => f.decl c.progStrings f.loadedParent) (c.progFunctions.flatMap writeFunction) :=
    Reads.many fun f hf => reads_writeFunction P h.strings (h.function f hf)
  have hopcodes : Reads (many readInt32 c.progOpcodes.length) (c.progOpcodes.map id) (c.progOpcodes.flatMap writeInt32) :=
    Reads.many fun op hop => reads_readInt32 (h.opcode op hop)
  have hdebug : Reads (many readDebugInfo c.progDebugInfo.length) (c.progDebugInfo.map id)
      (c.progDebugInfo.flatMap writeDebugInfo) :=
    Reads.many fun item hitem => reads_writeDebugInfo (h.debug item hitem).1 (h.debug item hitem).2
  rw [List.map_id] at hopcodes hdebug
  refine (reads_checkBytes header).bind ?_
  refine (reads_movePos (writeByte P.version.length)).bind ((reads_checkBytes P.version).bind ?_)
  refine Reads.bind_pure ?_ some
  refine (reads_readUVariable (by omega)).bind ((reads_readUVariable (by omega)).bind ?_)
  refine (reads_readUVariable (by omega)).bind ((reads_readUVariable (by omega)).bind ?_)
  refine (reads_readUVariable h.strings).bind ((reads_readUVariable h.functions).bind ?_)
  refine (reads_readUVariable h.opcodes).bind ((reads_readUVariable h.debugInfo).bind ?_)
  refine (reads_readUVariable (Nat.lt_trans h.filename h.strings)).bind ((Reads.check _ h.filename).bind_nil ?_)
  rw [htotal]
  refine (reads_unlimited _).bind_nil ?_
  refine hints.bind (hfloats.bind (hdoubles.bind (hlongDoubles.bind (hstrings.bind ?_))))
  refine (reads_constString h.filename).bind_nil ((reads_unlimited _).bind_nil (hfunctions.bind ?_))
  refine (reads_reserveCapacity fun _ => rfl).bind_nil (hopcodes.bind ?_)
  exact (reads_reserveCapacity fun _ => rfl).bind_nil (hdebug.bind_pure _)

/-! ### What comes back as it was -/

theorem loaded_eq_iff (x : Double) : loaded x = x ↔ x ≠ Double.negZero := by
  unfold loaded
  constructor
  · rintro h rfl
    cases h
  · exact fun h => if_neg h

theorem loadedParent_eq_iff (f : Scope) : f.loadedParent = f.parentFunction ↔ ∀ p ∈ f.parent, p.funcIndex = p.function := by
  unfold Scope.loadedParent Scope.parentLink Scope.parentFunction
  cases f.parent with
  | none =>
    constructor
    · rintro - p hp
      cases hp
    · intro _
      rfl
  | some p =>
    dsimp only
    constructor
    · rintro h q hq
      cases hq
      omega
    · intro h
      have hp := h p rfl
      omega

theorem toProgram_eq_iff (c : Compiled) : c.toProgram loaded Scope.loadedParent = c.program ↔
    (∀ x ∈ c.progNumbers, x ≠ Double.negZero) ∧ ∀ f ∈ c.progFunctions, ∀ p ∈ f.parent, p.funcIndex = p.function := by
  unfold Compiled.program Compiled.toProgram
  simp only [Program.mk.injEq, true_and, and_true, List.map_inj_left, Option.some.injEq, id_eq]
  refine and_congr (forall₂_congr fun x _ => loaded_eq_iff x) (forall₂_congr fun f _ => ?_)
  rw [← loadedParent_eq_iff]
  constructor
  · exact fun h => congrArg FunctionDecl.progParentFuncIndex h
  · intro h
    rw [h]

/-- **A saved text comes back as the same program** exactly if it has no negative zero and every parent scope has the same
index among the functions of its parent as its function has in the program. -/
theorem roundTrip_iff (P : Platform) (c : Compiled) (h : c.WellFormed) :
    (loadFromStream .unlimited P).run (saveToStream P c) = .ok (some c.program, []) ↔
      (∀ x ∈ c.progNumbers, x ≠ Double.negZero) ∧
        ∀ f ∈ c.progFunctions, ∀ p ∈ f.parent, p.funcIndex = p.function := by
  have hread := reads_saveToStream P h []
  rw [List.append_nil] at hread
  rw [hread, ← toProgram_eq_iff]
  constructor
  · intro heq
    injection heq with heq
    injection heq with heq
    injection heq
  · intro heq
    rw [heq]

/-! ### Texts -/

/-- A build for 64 bits whose `long double` is a `double`. -/
def shortPlatform : Platform where
  version := [50, 46, 54, 46, 53, 45, 114, 99, 0]
  sizeofValue := 16
  sizeofFunctionDecl := 72
  sizeofLocalVar := 40
  sizeofTryBlock := 12
  stringOverhead := 110
  longDoubleSize := 8
  longDoubleBytes := writeDouble
  ofLongDoubleBytes w := Double.ofBits (LittleEndian.value w)
  version_length := by decide
  longDoubleBytes_length d := LittleEndian.length_bytes 8 d.toBits
  ofLongDoubleBytes_longDoubleBytes d _ := by rw [writeDouble, LittleEndian.value_bytes d.toBits_lt, Double.ofBits_toBits]

def plainFunction (parent : Option ParentScope) (funcDepth funcIndex numLocalFuncs pos size : Nat) : Scope where
  parent := parent
  stackSize := 5
  numLocals := 4
  numParams := 2
  maxUpCount := 0
  funcDepth := funcDepth
  funcIndex := funcIndex
  numLocalFuncs := numLocalFuncs
  opcodesPos := pos
  opcodesSize := size
  localsCompiled := [1, 2, 3, 4].map fun name => ⟨name, pos, pos + size, false⟩
  tryBlocks := []

/-- The names are those of the file and of the locals. -/
def plainText (progNumbers : List Double) (progFunctions : List Scope) (progOpcodes : List Nat) : Compiled where
  progNumbers := progNumbers
  progStrings := [[97], [95, 70], [116, 104, 105, 115], [95, 69], [95, 71]]
  progFunctions := progFunctions
  progOpcodes := progOpcodes
  progDebugInfo := []
  progFilenameStringIndex := 0

/-- A function with a `try` statement. -/
def tryingFunction : Scope := { plainFunction (some ⟨0, 0⟩) 1 0 0 2 5 with tryBlocks := [⟨3, 5, 3⟩] }

/-- A text with numbers of every kind, a NaN among them, and with this function inside of it. -/
def fourNumbers : Compiled :=
  plainText [Double.ofInt 300, Double.ofBits (1022 * 2 ^ 52), Double.ofBits (1021 * 2 ^ 52 + 1), Double.ofBits (2047 * 2 ^ 52 + 2 ^ 51)]
    [plainFunction none 0 0 1 1 7, tryingFunction] [0, 8388615, 8388611, 8388613, 8388617, 16387, 16387, 16387]

/-- `return -0` -/
def returnNegZero : Compiled :=
  plainText [Double.negZero] [plainFunction none 0 0 0 1 3] [0, 8388615, 8388611, 16387]

def nestedFunctions : Compiled :=
  plainText [] [plainFunction none 0 0 2 1 7, plainFunction (some ⟨0, 0⟩) 1 1 2 2 5,
    plainFunction (some ⟨1, 1⟩) 2 1 2 3 3, plainFunction (some ⟨1, 2⟩) 3 1 0 4 1] [0, 0, 0, 0, 16387, 16387, 16387, 16387]

theorem plainFunction_wellFormed {c : Compiled} (hc : c.progStrings.length = 5) {parent : Option ParentScope}
    {funcDepth funcIndex numLocalFuncs pos size : Nat} (hparent : ∀ p ∈ parent, p.funcIndex + 1 < 2 ^ 31)
    (hdepth : funcDepth < 2 ^ 31) (hindex : funcIndex < 2 ^ 31) (hfuncs : numLocalFuncs < 2 ^ 31) (hsize : 0 < size)
    (hpos : pos + size < 2 ^ 31) : (plainFunction parent funcDepth funcIndex numLocalFuncs pos size).WellFormed c where
  parent := hparent
  stackSize := show 5 < 2 ^ 31 by decide
  numLocals := show 4 < 2 ^ 31 by decide
  numParams := show 2 < 2 ^ 31 by decide
  maxUpCount := show 0 < 2 ^ 31 by decide
  funcDepth := hdepth
  funcIndex := hindex
  numLocalFuncs := hfuncs
  numTryBlocks := show 0 < 2 ^ 31 by decide
  opcodes := hpos
  localsCompiled := rfl
  locals v hv := by
    obtain ⟨name, hname, rfl⟩ := List.mem_map.1 hv
    have hnames : ∀ n ∈ [1, 2, 3, 4], n < 5 := by decide
    have hlt := hnames name hname
    rw [hc]
    show name < 5 ∧ pos ≤ pos ∧ pos < pos + size ∧ pos < pos + size ∧ pos + size ≤ pos + size
    omega
  tryBlocks t ht := by cases ht

theorem plainText_wellFormed {progNumbers : List Double} {progFunctions : List Scope} {progOpcodes : List Nat}
    (hnumbers : progNumbers.length < 2 ^ 31) (hnan : ∀ x ∈ progNumbers, x.isNaN = true → x.isQuietNaN = true)
    (hfunctions : progFunctions.length < 2 ^ 31)
    (hfunction : ∀ f ∈ progFunctions, f.WellFormed (plainText progNumbers progFunctions progOpcodes))
    (hopcodes : progOpcodes.length < 2 ^ 31) (hopcode : ∀ op ∈ progOpcodes, op < 2 ^ 32) :
    (plainText progNumbers progFunctions progOpcodes).WellFormed where
  numbers := hnumbers
  nan := hnan
  strings := by
    show (5 : Nat) < 2 ^ 31
    decide
  string str hstr := by
    have hshort : ∀ w ∈ (plainText [] [] []).progStrings, w.length < 2 ^ 31 := by decide
    exact hshort str hstr
  functions := hfunctions
  function := hfunction
  opcodes := hopcodes
  opcode := hopcode
  debugInfo := by
    show (0 : Nat) < 2 ^ 31
    decide
  debug item hitem := by cases hitem
  filename := by
    show (0 : Nat) < 5
    decide

theorem fourNumbers_wellFormed : fourNumbers.WellFormed := by
  refine plainText_wellFormed (by decide) (by decide) (by decide) (fun f hf => ?_) (by decide) (by decide)
  rcases List.mem_pair.1 hf with rfl | rfl
  · exact plainFunction_wellFormed rfl (by rintro p ⟨⟩) (by decide) (by decide) (by decide) (by decide) (by decide)
  · have hplain : (plainFunction (some ⟨0, 0⟩) 1 0 0 2 5).WellFormed fourNumbers := by
      refine plainFunction_wellFormed rfl ?_ (by decide) (by decide) (by decide) (by decide) (by decide)
      decide
    exact { hplain with
      numTryBlocks := show 1 < 2 ^ 31 by decide
      tryBlocks := by decide }

theorem returnNegZero_wellFormed : returnNegZero.WellFormed := by
  refine plainText_wellFormed (by decide) (by decide) (by decide) (fun f hf => ?_) (by decide) (by decide)
  rw [List.mem_singleton.1 hf]
  exact plainFunction_wellFormed rfl (by rintro p ⟨⟩) (by decide) (by decide) (by decide) (by decide) (by decide)

theorem nestedFunctions_wellFormed : nestedFunctions.WellFormed := by
  refine plainText_wellFormed (by decide) (by decide) (by decide) (fun f hf => ?_) (by decide) (by decide)
  simp only [List.mem_cons, List.not_mem_nil, or_false] at hf
  rcases hf with rfl | rfl | rfl | rfl <;>
    refine plainFunction_wellFormed rfl ?_ (by decide) (by decide) (by decide) (by decide) (by decide) <;> decide

theorem fourNumbers_roundTrip :
    (loadFromStream .unlimited shortPlatform).run (saveToStream shortPlatform fourNumbers) = .ok (some fourNumbers.program, []) :=
  (roundTrip_iff shortPlatform fourNumbers fourNumbers_wellFormed).2 ⟨by decide, by decide⟩

-- An integer, a float, a double and a NaN, each written in the stream of its kind.
example : (writeNumbers shortPlatform .empty 0 fourNumbers.progNumbers).int.count = 1 ∧
    (writeNumbers shortPlatform .empty 0 fourNumbers.progNumbers).float.count = 1 ∧
    (writeNumbers shortPlatform .empty 0 fourNumbers.progNumbers).double.count = 1 ∧
    (writeNumbers shortPlatform .empty 0 fourNumbers.progNumbers).longDouble.count = 1 := by decide

/-- The zero of `return -0` comes back without its sign, and the innermost of three functions with the wrong parent. -/
theorem negZero_and_parent_lost :
    (loadFromStream .unlimited shortPlatform).run (saveToStream shortPlatform returnNegZero) ≠
        .ok (some returnNegZero.program, []) ∧
      (loadFromStream .unlimited shortPlatform).run (saveToStream shortPlatform nestedFunctions) ≠
        .ok (some nestedFunctions.program, []) := by
  have hlost : ∀ c : Compiled, c.WellFormed → c.toProgram loaded Scope.loadedParent ≠ c.program →
      (loadFromStream .unlimited shortPlatform).run (saveToStream shortPlatform c) ≠ .ok (some c.program, []) := by
    intro c hc hne heq
    have hread := reads_saveToStream shortPlatform hc []
    rw [List.append_nil, heq] at hread
    injection hread with hread
    injection hread with hread
    injection hread with hread
    exact hne hread.symm
  refine ⟨hlost _ returnNegZero_wellFormed fun h => ?_, hlost _ nestedFunctions_wellFormed fun h => ?_⟩
  · exact ((toProgram_eq_iff _).1 h).1 _ List.mem_cons_self rfl
  · have hparents := ((toProgram_eq_iff _).1 h).2
    revert hparents
    decide

end Bytecode
end Compiler
end ObjectScript
