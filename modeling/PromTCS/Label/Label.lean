import PromTCS.Base.Endian

/-!
# Labels

A label is a name and a value, byte strings both. The label `__name__` carries the
metric; the other labels are the source of the samples, and `label_source_group`
writes them one after the other into the key the source is found by.
-/

namespace PromTCS

structure Label where
  label : List Byte
  value : List Byte
deriving DecidableEq, Repr

abbrev Labels := List Label

/-- The string `__name__`. -/
def metricName : List Byte := [95, 95, 110, 97, 109, 101, 95, 95]

/-- The source labels, all but `__name__`. -/
def sourceLabels (lbs : Labels) : Labels :=
  lbs.filter fun l => l.label != metricName

/-- The label that the constructor of `TreeQuerierSeriesSet` asks a metric id for. -/
def metricMatcher (l : Labels) : Option Label :=
  l.find? fun m => m.label == metricName

def labelMetric (lbs : Labels) : List Byte :=
  match lbs.find? fun l => l.label == metricName with
  | some l => l.value
  | none => []

/-- What `label_source_group` appends for a label: the name, `+` and the value. -/
def sourceText (l : Label) : List Byte :=
  l.label ++ [43] ++ l.value

/-- `label_source_group(lbs)`: the texts of the source labels between braces. -/
def labelSourceGroup (lbs : Labels) : List Byte :=
  [123] ++ (sourceLabels lbs).flatMap sourceText ++ [125]

end PromTCS
