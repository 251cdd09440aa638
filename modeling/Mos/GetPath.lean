import Mos.Lib.Buffer
import Mos.Pipe

/-!
# Path normalisation

`get_path` keeps the components of a path in `stack`, 40 rows of 128 bytes, and
collects the next one in `name`. What these and `p` hold at the call is whatever
the stack of the caller left there. An absolute path is normalised exactly when it
fits these tables and never goes above the root (`getPath_right_iff`).
-/

namespace Mos

open Buffer

abbrev slashChar : Byte := 0x2f

/-- `"."` -/
abbrev dotName : List Byte := [0x2e]

/-- `".."` -/
abbrev dotdotName : List Byte := [0x2e, 0x2e]

/-- The locals of `get_path`. -/
structure PathVars where
  stack : Buffer 40 (Buffer 128 Byte)
  name : Buffer 128 Byte
  p : Int
  top : Int

/-- What the locals without initial value hold at the call. -/
structure PathFrame where
  stack : Buffer 40 (Buffer 128 Byte)
  name : Buffer 128 Byte
  p : BitVec 32

def PathFrame.vars (frame : PathFrame) : PathVars := ⟨frame.stack, frame.name, frame.p.toInt, -1⟩

/-- `top++; strcpy(stack[top], name);` -/
def pushName (s : PathVars) : Option PathVars := do
  let row ← s.stack.load (s.top + 1)
  let row ← strcpy row s.name
  let stack ← s.stack.store (s.top + 1) row
  some { s with stack, top := s.top + 1 }

/-- `name[p++] = c` -/
def addChar (s : PathVars) (c : Byte) : Option PathVars := do
  let name ← s.name.store s.p c
  some { s with name, p := s.p + 1 }

/-- `name[p] = 0; p = 0;` -/
def endName (s : PathVars) : Option PathVars := do
  let name ← s.name.store s.p 0
  some { s with name, p := 0 }

/-- A turn of the loop over `oldpath`. -/
def oldStep (s : PathVars) (c : Byte) : Option PathVars :=
  if c = slashChar then do
    let s ← endName s
    let first ← s.name.load 0
    if first ≠ 0 then pushName s else some s
  else addChar s c

/-- `stack[top][0] = 0; if (top != -1) top--;` -/
def popName (s : PathVars) : Option PathVars := do
  let row ← s.stack.load s.top
  let row ← row.store 0 0
  let stack ← s.stack.store s.top row
  some { s with stack, top := if s.top ≠ -1 then s.top - 1 else s.top }

/-- The end of a component of `path`. -/
def endComponent (s : PathVars) : Option PathVars := do
  let s ← endName s
  if ← same s.name dotName then some s
  else if ← same s.name dotdotName then popName s
  else do
    let first ← s.name.load 0
    if first ≠ 0 then pushName s else some s

/-- A turn of the loop over `path`. -/
def pathStep (s : PathVars) (c : Byte) : Option PathVars :=
  if c = slashChar then endComponent s else addChar s c

/-- `for (int j = 0; stack[i][j] != 0; j++) { newpath[p] = stack[i][j]; p++; }` -/
def copyRow (row : Buffer 128 Byte) :
    Nat → Nat → Buffer 1024 Byte × Int → Option (Buffer 1024 Byte × Int)
  | 0, _, _ => none
  | fuel + 1, j, (newpath, p) => do
      let c ← row.load j
      if c = 0 then some (newpath, p)
      else do
        let newpath ← newpath.store p c
        copyRow row fuel (j + 1) (newpath, p + 1)

/-- A turn of the loop that writes the components to `newpath`. -/
def writeRow (s : PathVars) (out : Buffer 1024 Byte × Int) (i : Nat) :
    Option (Buffer 1024 Byte × Int) := do
  let row ← s.stack.load i
  let (newpath, p) ← copyRow row 129 0 out
  let newpath ← newpath.store p slashChar
  some (newpath, p + 1)

def writePath (s : PathVars) (newpath : Buffer 1024 Byte) : Option (Buffer 1024 Byte) := do
  let newpath ← newpath.store 0 slashChar
  let (newpath, p) ← (List.range (s.top + 1).toNat).foldlM (writeRow s) (newpath, 1)
  newpath.store p 0

/-- What `syscall_get_path` returns: `pwd`, which is `"/"` if it was empty. -/
def shownPath (pwd : List Byte) : List Byte := if pwd = [] then [slashChar] else pwd

/-- `get_path`, with the 1024 bytes its callers have for `newpath`. No result stands
for an index outside an array. -/
def getPath (frame : PathFrame) (pwd path : List Byte) (newpath : Buffer 1024 Byte) :
    Option (Buffer 1024 Byte) := do
  let s ← if path.head? ≠ some slashChar then (shownPath pwd).foldlM oldStep frame.vars
    else some frame.vars
  let s ← path.foldlM pathStep { s with p := 0 }
  let s ← endComponent s
  writePath s newpath

/-! ## The normal form -/

/-- A component added to those before it. -/
def normStep (names : List (List Byte)) (c : List Byte) : List (List Byte) :=
  if c = [] ∨ c = dotName then names
  else if c = dotdotName then names.dropLast
  else names ++ [c]

/-- The components of the working directory, none for an absolute path, followed by
those of the path. -/
def normalForm (pwd path : List Byte) : List (List Byte) :=
  ((if path.head? = some slashChar then [] else (shownPath pwd).splitOn slashChar) ++
    path.splitOn slashChar).foldl normStep []

/-- `'/'` followed by each component followed by `'/'`. -/
def pathText (names : List (List Byte)) : List Byte := slashChar :: names.flatMap (· ++ [slashChar])

/-- Whatever the locals hold at the call, the normal form is written. -/
def PathRight (pwd path : List Byte) : Prop :=
  ∀ frame newpath, ∃ newpath', getPath frame pwd path newpath = some newpath' ∧
    newpath'.IsString (pathText (normalForm pwd path))

/-- Below `d` directories, no component goes above the root or more than 40 deep. -/
def InDepth : Nat → List (List Byte) → Prop
  | _, [] => True
  | d, c :: cs =>
      if c = [] ∨ c = dotName then InDepth d cs
      else if c = dotdotName then 0 < d ∧ InDepth (d - 1) cs
      else d < 40 ∧ InDepth (d + 1) cs

instance InDepth.decidable : (d : Nat) → (cs : List (List Byte)) → Decidable (InDepth d cs)
  | _, [] => .isTrue trivial
  | d, c :: cs =>
      have := InDepth.decidable d cs
      have := InDepth.decidable (d - 1) cs
      have := InDepth.decidable (d + 1) cs
      inferInstanceAs (Decidable (if c = [] ∨ c = dotName then InDepth d cs
        else if c = dotdotName then 0 < d ∧ InDepth (d - 1) cs
        else d < 40 ∧ InDepth (d + 1) cs))

/-- An absolute path that fits the tables and stays below the root. -/
structure PathFits (path : List Byte) : Prop where
  absolute : path.head? = some slashChar
  names : ∀ c ∈ path.splitOn slashChar, c.length < 128
  depth : InDepth 0 (path.splitOn slashChar)
  length : (pathText (normalForm [] path)).length < 1024

variable {s s' : PathVars} {names : List (List Byte)} {cur name path pwd : List Byte} {c : Byte}
  {newpath newpath' : Buffer 1024 Byte} {frame : PathFrame}

/-! ## The tables hold the names -/

/-- The tables hold `names`, and `name` begins with `cur`. -/
structure InTables (names : List (List Byte)) (cur : List Byte) (s : PathVars) : Prop where
  top : s.top = names.length - 1
  depth : names.length ≤ 40
  rows : ∀ i (h : i < names.length), ∃ row, s.stack.load i = some row ∧ row.IsString names[i]
  p : s.p = cur.length
  name : s.name.Holds cur
  chars : (0 : Byte) ∉ cur

theorem InTables.addChar (h : InTables names cur s) (nonzero : c ≠ 0) :
    if cur.length < 128 then ∃ s', addChar s c = some s' ∧ InTables names (cur ++ [c]) s'
    else addChar s c = none := by
  split
  case isTrue room =>
    obtain ⟨name', stored, holds⟩ := h.name.push room c
    refine ⟨⟨s.stack, name', s.p + 1, s.top⟩, ?_, ⟨h.top, h.depth, h.rows, ?_, holds, ?_⟩⟩
    · simp only [Mos.addChar, h.p, stored, Option.bind_eq_bind, Option.bind_some]
    · simp [h.p]
    · rw [List.mem_append, List.mem_singleton]
      exact fun zero => zero.elim h.chars nonzero.symm
  case isFalse full =>
    simp [Mos.addChar, h.p, h.name.push_full full]

/-- The name collected is complete, and the next one starts. -/
theorem InTables.endName (h : InTables names cur s) :
    if cur.length < 128 then
      ∃ s', endName s = some s' ∧ InTables names [] s' ∧ s'.name.IsString cur
    else endName s = none := by
  split
  case isTrue room =>
    obtain ⟨name', stored, holds⟩ := h.name.push room 0
    refine ⟨⟨s.stack, name', 0, s.top⟩, ?_, ⟨h.top, h.depth, h.rows, rfl, .nil _, by simp⟩,
      ⟨holds, h.chars⟩⟩
    simp only [Mos.endName, h.p, stored, Option.bind_eq_bind, Option.bind_some]
  case isFalse full =>
    simp [Mos.endName, h.p, h.name.push_full full]

theorem InTables.pushName (h : InTables names [] s) (str : s.name.IsString name) :
    if names.length < 40 then ∃ s', pushName s = some s' ∧ InTables (names ++ [name]) [] s'
    else pushName s = none := by
  have next : s.top + 1 = names.length := by
    rw [h.top]
    omega
  split
  case isTrue room =>
    obtain ⟨row, copied, str'⟩ := str.strcpy str.lt (s.stack ⟨names.length, room⟩)
    obtain ⟨stack', stored⟩ : ∃ stack', s.stack.store (names.length : Int) row = some stack' :=
      ⟨_, store_natCast room⟩
    refine ⟨⟨stack', s.name, s.p, s.top + 1⟩, ?_, ⟨?_, ?_, fun i hi => ?_, h.p, h.name, h.chars⟩⟩
    · simp only [Mos.pushName, next, load_natCast room, copied, stored, Option.bind_eq_bind,
        Option.bind_some]
    · simp [next]
    · rw [List.length_append, List.length_singleton]
      exact room
    · rw [load_store stored]
      rcases Nat.lt_or_ge i names.length with old | last
      · obtain ⟨row', read, str''⟩ := h.rows i old
        refine ⟨row', by rw [if_neg (by omega)]; exact read, ?_⟩
        rwa [List.getElem_append_left old]
      · have here : i = names.length := by
          rw [List.length_append, List.length_singleton] at hi
          omega
        subst here
        exact ⟨row, by simp, by simpa using str'⟩
  case isFalse full =>
    have outside : s.stack.load (names.length : Int) = none := load_outside (by omega)
    simp [Mos.pushName, next, outside]

/-- `..` removes the last name, and writes before `stack` where there is none. -/
theorem InTables.popName (h : InTables names [] s) :
    if names ≠ [] then ∃ s', popName s = some s' ∧ InTables names.dropLast [] s'
    else popName s = none := by
  split
  case isFalse root =>
    have outside : s.stack.load s.top = none :=
      load_outside (by rw [h.top, not_not.mp root]; simp)
    simp [Mos.popName, outside]
  case isTrue below =>
    have positive : 0 < names.length := List.length_pos_of_ne_nil below
    have index : s.top = ((names.length - 1 : Nat) : Int) := by
      rw [h.top]
      omega
    have inside : names.length - 1 < 40 := by
      have := h.depth
      omega
    obtain ⟨row, read, -⟩ := h.rows (names.length - 1) (by omega)
    obtain ⟨row', cleared⟩ : ∃ row', row.store ((0 : Nat) : Int) 0 = some row' :=
      ⟨_, store_natCast (by decide)⟩
    obtain ⟨stack', stored⟩ : ∃ stack', s.stack.store ((names.length - 1 : Nat) : Int) row' =
      some stack' := ⟨_, store_natCast inside⟩
    refine ⟨⟨stack', s.name, s.p, s.top - 1⟩, ?_, ⟨?_, ?_, fun i hi => ?_, h.p, h.name, h.chars⟩⟩
    · simp only [Mos.popName, index, read, Option.bind_eq_bind, Option.bind_some]
      rw [show row.store 0 0 = some row' from cleared]
      simp only [Option.bind_some, stored]
      rw [if_pos (by omega)]
    · show s.top - 1 = _
      rw [List.length_dropLast, index]
    · rw [List.length_dropLast]
      omega
    · rw [List.length_dropLast] at hi
      rw [load_store stored, if_neg (by omega), List.getElem_dropLast]
      exact h.rows i (by omega)

/-- A component added where it fits. -/
def boundedStep (names : List (List Byte)) (c : List Byte) : Option (List (List Byte)) :=
  if 128 ≤ c.length then none
  else if c = dotName then some names
  else if c = dotdotName then if names = [] then none else some names.dropLast
  else if c = [] then some names
  else if names.length < 40 then some (names ++ [c]) else none

/-- The tables hold `names`, between two components. -/
def Between (s : PathVars) (names : List (List Byte)) : Prop := InTables names [] s

theorem InTables.endComponent (h : InTables names cur s) :
    Option.Rel Between (endComponent s) (boundedStep names cur) := by
  have ended := h.endName
  unfold boundedStep Mos.endComponent
  split at ended
  case isFalse long =>
    rw [if_pos (by omega), ended]
    exact .none
  case isTrue short =>
    obtain ⟨s', ended, h', str⟩ := ended
    simp only [Option.bind_eq_bind, ended, Option.bind_some,
      str.same (by decide : (0 : Byte) ∉ dotName), str.same (by decide : (0 : Byte) ∉ dotdotName),
      if_neg (Nat.not_le.mpr short)]
    by_cases dot : cur = dotName
    · simp only [dot, decide_true, if_true]
      exact .some h'
    by_cases dotdot : cur = dotdotName
    · have other : dotdotName ≠ dotName := by decide
      simp only [dotdot, other, decide_true, decide_false, if_true, if_false, Bool.false_eq_true]
      rw [← ite_not]
      exact rel_of_ite h'.popName
    simp only [dot, dotdot, decide_false, if_false, Bool.false_eq_true]
    by_cases empty : cur = []
    · subst empty
      have first : s'.name.load 0 = some 0 := str.load_end
      simp only [first, Option.bind_some, if_true, ne_eq, not_true_eq_false, if_false]
      exact .some h'
    · have first : ∃ c, s'.name.load 0 = some c ∧ c ≠ 0 := by
        obtain ⟨c, rest, rfl⟩ := List.exists_cons_of_ne_nil empty
        refine ⟨c, str.load_char (i := 0) (by simp), fun zero => str.chars (by simp [zero])⟩
      obtain ⟨c, first, nonzero⟩ := first
      simp only [first, Option.bind_some, ne_eq, nonzero, not_false_eq_true, if_true, if_neg empty]
      exact rel_of_ite (h'.pushName str)

theorem splitOn_slash (c : Byte) (path : List Byte) :
    (c :: path).splitOn slashChar = if c = slashChar then [] :: path.splitOn slashChar
      else (path.splitOn slashChar).modifyHead (c :: ·) := by
  simp only [List.splitOn_eq_splitOnP, List.splitOnP_cons_eq_if_modifyHead, beq_iff_eq]

theorem modifyHead_nil_append (split : List (List Byte)) :
    split.modifyHead ([] ++ ·) = split := by
  cases split <;> rfl

/-- A component that is too long has no result, whatever follows. -/
theorem boundedStep_long (long : 128 ≤ cur.length) (split : List (List Byte)) (some : split ≠ []) :
    (split.modifyHead (cur ++ ·)).foldlM boundedStep names = none := by
  obtain ⟨head, tail, rfl⟩ := List.exists_cons_of_ne_nil some
  have longer : 128 ≤ (cur ++ head).length := by
    rw [List.length_append]
    omega
  simp only [List.modifyHead_cons, List.foldlM_cons, boundedStep, if_pos longer]
  rfl

/-- The loop over the path, and the end of its last component. -/
theorem InTables.walk (h : InTables names cur s) (string : (0 : Byte) ∉ path) :
    Option.Rel Between ((path.foldlM pathStep s).bind Mos.endComponent)
      (((path.splitOn slashChar).modifyHead (cur ++ ·)).foldlM boundedStep names) := by
  induction path generalizing names cur s with
  | nil =>
      have last := h.endComponent
      rw [show ([] : List Byte).splitOn slashChar = [[]] from rfl, List.modifyHead_cons,
        List.append_nil, List.foldlM_cons]
      simpa using last
  | cons c rest ih =>
      rw [List.mem_cons, not_or] at string
      rw [splitOn_slash, List.foldlM_cons, Option.bind_eq_bind, Option.bind_assoc]
      by_cases eq : c = slashChar
      · rw [if_pos eq, pathStep, if_pos eq, List.modifyHead_cons, List.append_nil, List.foldlM_cons]
        refine rel_bind h.endComponent fun s' names' h' => ?_
        have next := ih h' string.2
        rwa [modifyHead_nil_append] at next
      · have added := h.addChar (Ne.symm string.1)
        rw [if_neg eq, pathStep, if_neg eq]
        split at added
        case isTrue room =>
          obtain ⟨s', added, h'⟩ := added
          rw [added, Option.bind_some, List.modifyHead_modifyHead]
          have next := ih h' string.2
          simpa [Function.comp_def] using next
        case isFalse full =>
          rw [added, Option.bind_none, boundedStep_long (by omega)]
          · exact .none
          · simp

/-- The bounded steps reach the normal form, unless a name or the depth is out of bounds. -/
theorem boundedStep_foldlM (split : List (List Byte)) :
    split.foldlM boundedStep names =
      if (∀ c ∈ split, c.length < 128) ∧ InDepth names.length split then
        some (split.foldl normStep names) else none := by
  induction split generalizing names with
  | nil => simp [InDepth]
  | cons c split ih =>
      rw [List.foldlM_cons, List.foldl_cons, Option.bind_eq_bind]
      by_cases short : c.length < 128
      · by_cases skip : c = [] ∨ c = dotName
        · have here : boundedStep names c = some names := by
            rcases skip with rfl | rfl <;> rfl
          simp only [here, Option.bind_some, ih, List.forall_mem_cons, short, true_and, InDepth,
            normStep, if_pos skip]
        · obtain ⟨nonempty, notDot⟩ := not_or.mp skip
          have bounded : ¬ 128 ≤ c.length := Nat.not_le.mpr short
          simp only [boundedStep, if_neg bounded, if_neg notDot, List.forall_mem_cons, short,
            true_and, InDepth, normStep, if_neg skip, if_neg nonempty]
          by_cases up : c = dotdotName
          · simp only [if_pos up]
            cases names with
            | nil => simp
            | cons name names => simp [ih]
          · simp only [if_neg up]
            by_cases room : names.length < 40
            · simp [room, ih]
            · simp [room]
      · rw [show boundedStep names c = none from if_pos (by omega), Option.bind_none, if_neg]
        exact fun fits => short (fits.1 c List.mem_cons_self)

/-! ## Writing the result -/

/-- `newpath` is filled with `out`, or `out` does not fit. -/
def Appended (r : Option (Buffer 1024 Byte × Int)) (out : List Byte) : Prop :=
  if out.length ≤ 1024 then ∃ newpath, r = some (newpath, (out.length : Int)) ∧ newpath.Holds out
  else r = none

variable {out rest copied : List Byte} {r : Option (Buffer 1024 Byte × Int)}

/-- What follows is filled in behind `out`, and does not fit if `out` does not. -/
theorem Appended.bind {f : Buffer 1024 Byte × Int → Option (Buffer 1024 Byte × Int)}
    (appended : Appended r out) (step : ∀ newpath : Buffer 1024 Byte, newpath.Holds out →
      Appended (f (newpath, (out.length : Int))) (out ++ rest)) :
    Appended (r.bind f) (out ++ rest) := by
  unfold Appended at appended
  split at appended
  case isTrue =>
    obtain ⟨newpath, rfl, holds⟩ := appended
    exact step newpath holds
  case isFalse long =>
    rw [appended, Option.bind_none, Appended, if_neg]
    rw [List.length_append]
    omega

theorem Appended.push (holds : newpath.Holds out) (c : Byte) :
    Appended ((newpath.store (out.length : Int) c).bind fun newpath' =>
      some (newpath', (out.length : Int) + 1)) (out ++ [c]) := by
  unfold Appended
  rw [List.length_append, List.length_singleton]
  by_cases room : out.length < 1024
  · obtain ⟨newpath', stored, holds'⟩ := holds.push room c
    have fits : out.length + 1 ≤ 1024 := room
    rw [if_pos fits, stored]
    exact ⟨newpath', rfl, holds'⟩
  · rw [if_neg (by omega), holds.push_full room]
    rfl

theorem copyRow_appended {row : Buffer 128 Byte} {fuel : Nat} (str : row.IsString (copied ++ rest))
    (enough : rest.length < fuel) (holds : newpath.Holds out) :
    Appended (copyRow row fuel copied.length (newpath, (out.length : Int))) (out ++ rest) := by
  induction rest generalizing copied fuel newpath out with
  | nil =>
      obtain ⟨fuel, rfl⟩ := Nat.exists_eq_add_of_lt enough
      rw [List.append_nil] at str ⊢
      simp only [copyRow, str.load_end, Option.bind_eq_bind, Option.bind_some, if_true]
      rw [Appended, if_pos holds.le]
      exact ⟨newpath, rfl, holds⟩
  | cons c rest ih =>
      cases fuel with
      | zero => exact absurd enough (Nat.not_lt_zero _)
      | succ fuel =>
          have char : row.load copied.length = some c := by
            rw [str.load_char (by simp)]
            simp
          have nonzero : c ≠ 0 := fun eq => str.chars (by simp [eq])
          rw [List.append_cons] at str ⊢
          have step : ∀ newpath' : Buffer 1024 Byte, newpath'.Holds (out ++ [c]) →
              Appended (copyRow row fuel (copied.length + 1)
                (newpath', ((out ++ [c]).length : Int)))
                (out ++ [c] ++ rest) := by
            intro newpath' holds'
            have next := ih str (Nat.lt_of_succ_lt_succ enough) holds'
            rwa [List.length_append, List.length_singleton] at next
          have next := (Appended.push holds c).bind step
          rw [Option.bind_assoc] at next
          simp only [copyRow, char, Option.bind_eq_bind, Option.bind_some, if_neg nonzero]
          exact next

theorem writeRow_appended {i : Nat} {row : Buffer 128 Byte} (read : s.stack.load i = some row)
    (str : row.IsString name) (holds : newpath.Holds out) :
    Appended (writeRow s (newpath, (out.length : Int)) i) (out ++ (name ++ [slashChar])) := by
  have copied : Appended (copyRow row 129 0 (newpath, (out.length : Int))) (out ++ name) :=
    @copyRow_appended _ _ name [] row 129 str (Nat.lt_succ_of_lt str.lt) holds
  rw [← List.append_assoc]
  simp only [writeRow, read, Option.bind_eq_bind, Option.bind_some]
  exact copied.bind fun newpath' holds' => Appended.push holds' slashChar

/-- The loop over the rows. -/
theorem writeRows_appended (h : Between s names) (holds : newpath.Holds [slashChar]) {k : Nat}
    (le : k ≤ names.length) : Appended ((List.range k).foldlM (writeRow s) (newpath, 1))
      (pathText (names.take k)) := by
  induction k with
  | zero =>
      rw [Appended, if_pos (by simp [pathText])]
      exact ⟨newpath, rfl, by simpa [pathText] using holds⟩
  | succ k ih =>
      obtain ⟨row, read, str⟩ := h.rows k le
      have text : pathText (names.take (k + 1)) =
          pathText (names.take k) ++ (names[k] ++ [slashChar]) := by
        rw [List.take_succ_eq_append_getElem le, pathText, pathText, List.flatMap_append]
        simp
      rw [List.range_succ, List.foldlM_append, text]
      refine (ih (Nat.le_of_succ_le le)).bind fun newpath' holds' => ?_
      simpa using writeRow_appended read str holds'

theorem pathText_chars (h : Between s names) : (0 : Byte) ∉ pathText names := by
  have strings : ∀ c ∈ names, (0 : Byte) ∉ c := by
    intro c inNames
    obtain ⟨i, hi, rfl⟩ := List.getElem_of_mem inNames
    obtain ⟨row, -, str⟩ := h.rows i hi
    exact str.chars
  unfold pathText
  rw [List.mem_cons, List.mem_flatMap]
  rintro (zero | ⟨c, inNames, zero⟩)
  · cases zero
  · rcases List.mem_append.mp zero with zero | zero
    · exact strings c inNames zero
    · cases List.mem_singleton.mp zero

/-- The result is written if there is room for it and its terminator. -/
theorem writePath_spec (h : Between s names) :
    if (pathText names).length < 1024 then
      ∃ newpath', writePath s newpath = some newpath' ∧ newpath'.IsString (pathText names)
    else writePath s newpath = none := by
  obtain ⟨start, stored, holds⟩ := (Holds.nil newpath).push (by decide) slashChar
  have count : (s.top + 1).toNat = names.length := by
    rw [h.top]
    omega
  have rows := writeRows_appended h holds (Nat.le_refl _)
  rw [List.take_length] at rows
  have run : writePath s newpath = ((List.range names.length).foldlM (writeRow s) (start, 1)).bind
      fun out => out.1.store out.2 0 := by
    simp only [writePath, count, Option.bind_eq_bind]
    rw [show newpath.store 0 slashChar = some start from stored]
    rfl
  rw [run]
  unfold Appended at rows
  split at rows
  case isTrue =>
    obtain ⟨newpath', appended, holds'⟩ := rows
    rw [appended, Option.bind_some]
    split
    case isTrue room =>
      obtain ⟨final, ended, whole⟩ := holds'.push room 0
      exact ⟨final, ended, whole, pathText_chars h⟩
    case isFalse full => exact holds'.push_full full 0
  case isFalse long =>
    rw [if_neg (by omega), rows]
    rfl

/-! ## Which paths are normalised -/

theorem PathFrame.between (frame : PathFrame) :
    Between { frame.vars with p := 0 } [] where
  top := rfl
  depth := Nat.zero_le _
  rows i h := absurd h (Nat.not_lt_zero i)
  p := rfl
  name := .nil _
  chars := List.not_mem_nil

/-- An absolute path has the normal form written exactly when it fits. -/
theorem getPath_absolute (string : (0 : Byte) ∉ path) (absolute : path.head? = some slashChar) :
    (∃ newpath', getPath frame pwd path newpath = some newpath' ∧
      newpath'.IsString (pathText (normalForm pwd path))) ↔ PathFits path := by
  have form : ∀ pwd, normalForm pwd path = (path.splitOn slashChar).foldl normStep [] := by
    intro pwd
    rw [normalForm, if_pos absolute, List.nil_append]
  have walked := (frame.between).walk string
  rw [modifyHead_nil_append, boundedStep_foldlM, ← form pwd] at walked
  have run : getPath frame pwd path newpath =
      ((path.foldlM pathStep { frame.vars with p := 0 }).bind endComponent).bind
        fun s => writePath s newpath := by
    simp only [getPath, absolute, Option.bind_eq_bind, ne_eq, not_true_eq_false, if_false,
      Option.bind_some, Option.bind_assoc]
  have fits : PathFits path ↔ ((∀ c ∈ path.splitOn slashChar, c.length < 128) ∧
      InDepth 0 (path.splitOn slashChar)) ∧ (pathText (normalForm pwd path)).length < 1024 := by
    rw [form pwd, ← form []]
    exact ⟨fun h => ⟨⟨h.names, h.depth⟩, h.length⟩, fun h => ⟨absolute, h.1.1, h.1.2, h.2⟩⟩
  rw [run, fits]
  split at walked
  case isTrue inTables =>
    obtain ⟨s, ended, h⟩ := exists_of_rel_some walked
    have written := @writePath_spec _ _ newpath h
    rw [ended, Option.bind_some]
    split at written
    case isTrue room => exact ⟨fun _ => ⟨inTables, room⟩, fun _ => written⟩
    case isFalse full =>
      rw [written]
      refine ⟨fun h => ?_, fun h => absurd h.2 full⟩
      obtain ⟨_, h, -⟩ := h
      cases h
  case isFalse outside =>
    rw [eq_none_of_rel walked, Option.bind_none]
    refine ⟨fun h => ?_, fun h => absurd h.1 outside⟩
    obtain ⟨_, h, -⟩ := h
    cases h

/-- The loop over the working directory starts with a store to `name[p]`. -/
theorem getPath_relative (relative : path.head? ≠ some slashChar)
    (outside : ¬ (0 ≤ frame.p.toInt ∧ frame.p.toInt < 128)) :
    getPath frame pwd path newpath = none := by
  have nonempty : shownPath pwd ≠ [] := by
    unfold shownPath
    split
    case isTrue => exact List.cons_ne_nil _ _
    case isFalse h => exact h
  obtain ⟨c, rest, shown⟩ := List.exists_cons_of_ne_nil nonempty
  have stored : ∀ x, frame.vars.name.store frame.vars.p x = none := fun x => store_outside outside
  have first : oldStep frame.vars c = none := by
    unfold oldStep
    split
    case isTrue => simp [endName, stored]
    case isFalse => simp [addChar, stored]
  simp only [getPath, relative, ne_eq, not_false_eq_true, if_true, shown, List.foldlM_cons, first,
    Option.bind_eq_bind, Option.bind_none]

/-- A stack on which `p` starts out before `name`. -/
def strayFrame : PathFrame := ⟨fun _ _ => 0, fun _ => 0, -1⟩

/-- `get_path` writes the normal form, whatever the stack holds, exactly for an absolute
path whose names and depth fit `stack`, that does not go above the root, and whose
normal form fits `newpath`. -/
theorem getPath_right_iff (string : (0 : Byte) ∉ path) : PathRight pwd path ↔ PathFits path := by
  by_cases absolute : path.head? = some slashChar
  · constructor
    · intro right
      exact (getPath_absolute string absolute).mp (right strayFrame fun _ => 0)
    · intro fits frame newpath
      exact (getPath_absolute string absolute).mpr fits
  · refine ⟨fun right => ?_, fun fits => absurd fits.absolute absolute⟩
    obtain ⟨newpath', run, -⟩ := right strayFrame fun _ => 0
    rw [getPath_relative absolute (by decide)] at run
    cases run

/-- `"/home/./../bin/"` -/
theorem getPath_right_iff_bin : PathRight []
    [0x2f, 0x68, 0x6f, 0x6d, 0x65, 0x2f, 0x2e, 0x2f, 0x2e, 0x2e, 0x2f, 0x62, 0x69, 0x6e, 0x2f] :=
  (getPath_right_iff (by decide)).mpr
    ⟨by decide, by decide, by decide, by decide⟩

/-- `"bin"` in the root directory. -/
theorem getPath_not_right : ¬ ∀ pwd path : List Byte, (0 : Byte) ∉ path → path.length ≤ 1024 →
    PathRight pwd path := by
  intro always
  obtain ⟨newpath', run, -⟩ := always [slashChar] [0x62, 0x69, 0x6e] (by decide) (by decide)
    strayFrame fun _ => 0
  rw [getPath_relative (by decide) (by decide)] at run
  cases run

end Mos
