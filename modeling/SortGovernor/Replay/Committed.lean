import SortGovernor.Engine.Reading

/-!
# The committed rows of a replay

The rows file holds a header and then one frame after another.  An append only
adds to its end and only the header is ever rewritten, so the frame of a
committed row stays where it is and any read at its offset finds it.
-/

namespace SortGovernor.Engine

open SortGovernor.Resumption SortGovernor.Bytes

variable {Value : Type}

/-- A row as an append wrote it. -/
structure Committed (Value : Type) where
  record : Record Unit Value
  weight : Nat
  body : List UInt8

namespace Committed

def value (row : Committed Value) : Value := row.record.2.1

def frame (row : Committed Value) : List UInt8 := frameBytes row.weight row.body

structure Valid (codec : Codec Unit Value) (row : Committed Value) : Prop where
  encodes : codec.Encodes row.record row.body
  fits : row.body.length ≤ u32Max

end Committed

def framesOf (rows : List (Committed Value)) : List UInt8 :=
  (rows.map Committed.frame).flatten

/-- Where the frame of the row at a position starts. -/
def offsetOf (rows : List (Committed Value)) (position : Nat) : Nat :=
  8 + ((rows.take position).map fun row => 12 + row.body.length).sum

/-- A rows file: a header, the frames of `rows`, and whatever an unfinished
append has added. -/
def RowsFile (rows : List (Committed Value)) (tail : List UInt8) (content : Option (List UInt8)) :
    Prop :=
  ∃ header, header.length = 8 ∧ content = some (header ++ (framesOf rows ++ tail))

section Layout

variable {rows more : List (Committed Value)} {row : Committed Value} {position : Nat}

@[simp]
theorem framesOf_append (rows more : List (Committed Value)) :
    framesOf (rows ++ more) = framesOf rows ++ framesOf more := by
  simp [framesOf]

theorem length_framesOf (rows : List (Committed Value)) :
    (framesOf rows).length = (rows.map fun row => 12 + row.body.length).sum := by
  induction rows with
  | nil => rfl
  | cons row rows inductionHypothesis =>
      have split : framesOf (row :: rows) = row.frame ++ framesOf rows := rfl
      rw [split, List.length_append, inductionHypothesis, Committed.frame, length_frameBytes]
      rfl

theorem offsetOf_eq (rows : List (Committed Value)) (position : Nat) :
    offsetOf rows position = 8 + (framesOf (rows.take position)).length := by
  rw [offsetOf, length_framesOf]

theorem framesOf_split (found : rows[position]? = some row) :
    framesOf rows =
      framesOf (rows.take position) ++ (row.frame ++ framesOf (rows.drop (position + 1))) := by
  obtain ⟨inside, same⟩ := List.getElem?_eq_some_iff.mp found
  have split : rows = rows.take position ++ (row :: rows.drop (position + 1)) := by
    rw [← same, ← List.drop_eq_getElem_cons inside, List.take_append_drop]
  calc framesOf rows
      = framesOf (rows.take position ++ (row :: rows.drop (position + 1))) := congrArg _ split
    _ = _ := framesOf_append ..

theorem offsetOf_succ (found : rows[position]? = some row) :
    offsetOf rows (position + 1) = offsetOf rows position + (12 + row.body.length) := by
  simp only [offsetOf, List.take_add_one, found, Option.toList_some, List.map_append,
    List.sum_append, List.map_cons, List.map_nil, List.sum_cons, List.sum_nil]
  omega

theorem offsetOf_append (within : position ≤ rows.length) :
    offsetOf (rows ++ more) position = offsetOf rows position := by
  rw [offsetOf, List.take_append_of_le_length within, offsetOf]

theorem offsetOf_lt {first second : Nat} (order : first < second) (within : second ≤ rows.length) :
    offsetOf rows first < offsetOf rows second := by
  induction order with
  | refl =>
      rw [offsetOf_succ (List.getElem?_eq_getElem within)]
      omega
  | step order inductionHypothesis =>
      have before := inductionHypothesis (by omega)
      rw [offsetOf_succ (List.getElem?_eq_getElem within)]
      omega

theorem offsetOf_injective {first second : Nat} (firstWithin : first ≤ rows.length)
    (secondWithin : second ≤ rows.length)
    (same : offsetOf rows first = offsetOf rows second) : first = second := by
  by_contra different
  obtain less | greater := Nat.lt_or_gt_of_ne different
  · have before := offsetOf_lt less secondWithin
    omega
  · have before := offsetOf_lt greater firstWithin
    omega

end Layout

/-- What the calls of a read reply while the frames of `rows` stay in place. -/
def steadyReads (rows : List (Committed Value)) : Semantics fileCalls Unit where
  reply
    | .readExact _ offset count, _, reply, _ => ∀ value, reply = .ok value → 8 ≤ offset →
        offset - 8 + count ≤ (framesOf rows).length →
        value = ((framesOf rows).drop (offset - 8)).take count
    | _, _, _, _ => True
  drop _ _ _ := True

def FileOp.Inspects (path : ScratchPath) : FileOp → Prop
  | .open target | .readExact target _ _ => target = path
  | .reserve _ => True
  | _ => False

section Reading

variable {rows more : List (Committed Value)} {path : ScratchPath} {op : FileOp} {fs fs' : Fs}

theorem FileOp.Inspects.step (inspects : op.Inspects path) {reply : Except SorterError op.Value}
    (step : op.Step fs reply fs') : fs' = fs := by
  cases op with
  | reserve bytes => exact step.1
  | «open» target =>
      obtain ⟨value, effect, -⟩ | ⟨error, -, torn⟩ := step
      · exact effect_open effect
      · exact torn
  | readExact target offset count =>
      obtain ⟨value, effect, -⟩ | ⟨error, -, torn⟩ := step
      · obtain ⟨_, _, _, _, same⟩ := effect_readExact effect
        exact same
      · exact torn
  | _ => cases inspects

theorem RowsFile.replies {tail : List UInt8} (content : RowsFile rows tail (fs.files path))
    (inspects : op.Inspects path) {reply : Except SorterError op.Value}
    (step : op.Step fs reply fs') : (steadyReads rows).reply op () reply () := by
  cases op with
  | readExact target offset count =>
      obtain rfl : target = path := inspects
      rintro value rfl beyond inside
      obtain ⟨value', effect, same⟩ | ⟨error, same, -⟩ := step
      · cases same
        obtain ⟨bytes, found, -, rfl, -⟩ := FileOp.effect_readExact effect
        obtain ⟨header, eight, same⟩ := content
        cases same.symm.trans found
        have past : offset = header.length + (offset - 8) := by omega
        rw [past, ← List.drop_drop, List.drop_left, eight, Nat.add_sub_cancel_left,
          List.drop_append_of_le_length (by omega),
          List.take_append_of_le_length (by rw [List.length_drop]; omega)]
      · cases same
  | _ => trivial

theorem steadyReads_append {reply : fileCalls.Reply op}
    (replied : (steadyReads (rows ++ more)).reply op () reply ()) :
    (steadyReads rows).reply op () reply () := by
  cases op with
  | readExact target offset count =>
      intro value same beyond inside
      have known := replied value same beyond (by rw [framesOf_append, List.length_append]; omega)
      rw [known, framesOf_append, List.drop_append_of_le_length (by omega),
        List.take_append_of_le_length (by rw [List.length_drop]; omega)]
  | _ => trivial

variable {codec : Codec Unit Value} {row : Committed Value} {position : Nat}

/-- The part of a committed frame that starts `skip` bytes into it. -/
theorem framesOf_slice (found : rows[position]? = some row) {skip count : Nat}
    (inside : skip + count ≤ row.frame.length) :
    offsetOf rows position + skip - 8 + count ≤ (framesOf rows).length ∧
      ((framesOf rows).drop (offsetOf rows position + skip - 8)).take count =
        (row.frame.drop skip).take count := by
  have start : offsetOf rows position + skip - 8 =
      (framesOf (rows.take position)).length + skip := by
    rw [offsetOf_eq]
    omega
  rw [start, framesOf_split found]
  constructor
  · simp only [List.length_append]
    omega
  · rw [← List.drop_drop, List.drop_left, List.drop_append_of_le_length (by omega),
      List.take_append_of_le_length (by rw [List.length_drop]; omega)]

section Calls

variable {Result : Type} {issue : Unit → FileOp → Unit → Prop}

theorem wp_steadyCall (op : FileOp) {ok : op.Value → Unit → Unit → Prop}
    {err : SorterError → Unit → Unit → Prop} (issued : issue () op ())
    (done : ∀ value, (steadyReads rows).reply op () (.ok value) () → ok value () ())
    (failed : ∀ error, err error () ()) :
    (Job.call op).wp (steadyReads rows) issue ok err () () := by
  refine Method.wp_bind.mpr (Method.wp_issue.mpr ⟨issued, ?_⟩)
  intro reply _ replied
  refine Method.wp_ofExcept.mpr ?_
  cases reply with
  | error error => exact failed error
  | ok value => exact done value replied

end Calls

/-- A read at the offset of a committed row finds its body. -/
theorem wp_readFrame_steady (found : rows[position]? = some row) (valid : row.Valid codec)
    (path : ScratchPath) (rowInline : Nat) :
    ((FsJob.readFrame path (offsetOf rows position) rowInline).body).wp (steadyReads rows)
      (fun _ op _ => op.Inspects path) (fun frame _ _ => frame.bytes = row.body)
      (fun _ _ _ => True) () () := by
  have long : row.frame.length = 12 + row.body.length := length_frameBytes ..
  have beyond : ∀ skip, 8 ≤ offsetOf rows position + skip := by
    intro skip
    rw [offsetOf_eq]
    omega
  simp only [FsJob.body, AsyncFile.open, AsyncFile.seek, AsyncFile.readExact, FsJob.reserveFrame,
    bind_assoc, pure_bind]
  refine Method.wp_bind.mpr (wp_steadyCall (.open path) (by exact rfl) ?_ fun _ => trivial)
  intro _ _
  refine Method.wp_bind.mpr (wp_steadyCall (.readExact path (offsetOf rows position) 4)
    (by exact rfl) ?_ fun _ => trivial)
  intro length replied
  have isLength : ofLittleEndian length = row.body.length := by
    obtain ⟨inside, slice⟩ := framesOf_slice found (by omega : 0 + 4 ≤ row.frame.length)
    rw [replied length rfl (beyond 0) inside]
    have fits := valid.fits
    unfold u32Max at fits
    rw [Nat.add_zero, List.drop_zero] at slice
    rw [slice, Committed.frame, frameBytes, List.append_assoc,
      List.take_left' (length_toLittleEndian _ _), ofLittleEndian_toLittleEndian 4 _ (by omega)]
  refine Method.wp_bind.mpr (wp_steadyCall (.readExact path (offsetOf rows position + 4) 8)
    (by exact rfl) ?_ fun _ => trivial)
  intro weight _
  refine Method.wp_bind.mpr (wp_steadyCall (.reserve _) (by exact trivial) ?_ fun _ => trivial)
  intro rowCharge _
  refine Method.wp_bind.mpr (Method.wp_okOr.mpr ?_)
  split
  · refine Method.wp_bind.mpr (wp_steadyCall (.reserve _) (by exact trivial) ?_ fun _ => trivial)
    intro frameCharge _
    refine Method.wp_bind.mpr
      (wp_steadyCall (.readExact path (offsetOf rows position + 4 + 8) (ofLittleEndian length))
        (by exact rfl) ?_ fun _ => trivial)
    intro bytes replied
    obtain ⟨inside, slice⟩ := framesOf_slice found
      (by omega : 12 + row.body.length ≤ row.frame.length)
    have isBody := replied bytes rfl (beyond 12)
    rw [isLength] at isBody
    refine Method.wp_pure.mpr ((isBody inside).trans (slice.trans ?_))
    rw [Committed.frame, frameBytes, List.drop_left' (by simp), List.take_length]
  · trivial

end Reading

end SortGovernor.Engine
