import InvertedFile.Json.Literal
import InvertedFile.Layout.Growth

/-!
# Parameters of an index

What an index is made with: the number of its lists, the metric it was built
for, the way its lists grow and, if it is not to be chosen, the width of a
chunk. The metric is stored and never evaluated.

Parameters are stored as JSON text. They are written as one object with all
four fields in a fixed order. They are read from any object with these
fields, in any order and among any other members, or from an array of the
fields in their order; all fields but the first may be missing.

## Main results

* `Metric.ofName?_name` — metrics are told apart by their names.
-/

namespace InvertedFile

/-- How the distance of two vectors is measured. -/
inductive Metric where
  | l2
  | l2Sqrt
  | innerProduct
  | cosine
  deriving DecidableEq, Repr

namespace Metric

/-- The name of a metric, in parameters and in words. -/
def name : Metric → String
  | l2 => "L2Expanded"
  | l2Sqrt => "L2SqrtExpanded"
  | innerProduct => "InnerProduct"
  | cosine => "CosineExpanded"

/-- Every metric. -/
def all : List Metric :=
  [l2, l2Sqrt, innerProduct, cosine]

/-- The metric of a name. -/
def ofName? (name : List Char) : Option Metric :=
  all.find? fun m => m.name.toList == name

theorem ofName?_name (m : Metric) : ofName? m.name.toList = some m := by
  cases m <;> decide

/-- A metric as a JSON value: its name, or an object of one member, which is null under the name. -/
def ofJson? (s : Bytes) : Option Metric :=
  match Json.string? s with
  | some name => ofName? name
  | none =>
      match Json.object? s with
      | some [(name, value)] => if value.text = Json.nullText then ofName? name else none
      | _ => none

end Metric

/-- The parameters of an index. -/
structure IndexParams where
  lists : UInt32
  metric : Metric
  growth : Growth
  veclen : Option UInt32
  deriving DecidableEq

namespace IndexParams

/-- The parameters of an index of a number of lists, with defaults for all else. -/
def new (lists : UInt32) : IndexParams where
  lists := lists
  metric := .l2
  growth := .doubling
  veclen := none

/-- The parameters of an index that nothing is asked of. -/
def default : IndexParams :=
  new 1024

/-- The steadily growing lists are the ones called conservative. -/
def conservative (p : IndexParams) : Bool :=
  p.growth = .steady

/-- The way to grow that a flag for conservative lists stands for. -/
def growthOf (conservative : Bool) : Growth :=
  if conservative then .steady else .doubling

/-- Parameters as JSON text. -/
def toJson (p : IndexParams) : Bytes :=
  Json.objectText
    [ ("n_lists", Json.numberText p.lists.toNat),
      ("metric", Json.stringText p.metric.name),
      ("conservative_memory_allocation", Json.truthText p.conservative),
      ("veclen", match p.veclen with
        | none => Json.nullText
        | some veclen => Json.numberText veclen.toNat) ]

/-- A number of thirty-two bits. -/
def word? (s : Bytes) : Option UInt32 :=
  (Json.numberBelow? countLimit s).map UInt32.ofNat

/-- Parameters as JSON text, in any spelling. -/
def ofJson? (s : Bytes) : Option IndexParams :=
  match Json.object? s with
  | some members => do
      let lists ← Json.field? "n_lists" word? none members
      let metric ← Json.field? "metric" Metric.ofJson? (some .l2) members
      let conservative ←
        Json.field? "conservative_memory_allocation" Json.truth? (some false) members
      let veclen ← Json.field? "veclen" (Json.optional? word?) (some none) members
      return { lists, metric, growth := growthOf conservative, veclen }
  | none => do
      let elements ← (Json.array? s).filter fun elements => elements.length ≤ 4
      let lists ← Json.element? 0 word? none elements
      let metric ← Json.element? 1 Metric.ofJson? (some .l2) elements
      let conservative ← Json.element? 2 Json.truth? (some false) elements
      let veclen ← Json.element? 3 (Json.optional? word?) (some none) elements
      return { lists, metric, growth := growthOf conservative, veclen }

/-- Parameters in words. -/
def describe (p : IndexParams) : String :=
  let veclen := match p.veclen with
    | none => "None"
    | some veclen => s!"Some({veclen})"
  "IndexParams \x7b " ++
    s!"n_lists: {p.lists}, metric: {p.metric.name}, " ++
    s!"conservative_memory_allocation: {p.conservative}, veclen: {veclen} \x7d"

end IndexParams

end InvertedFile
