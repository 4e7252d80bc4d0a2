import KernelMemory.Extent.Range

/-!
# Defects of an extent map

What an audit of an extent map can name: the extents do not tile the region, two
neighbours should have been merged, or the size classes disagree with the extents.
-/

namespace KernelMemory

open Text

/-- A structural defect of an extent map. -/
inductive ExtentViolation
  /-- The index below the map is defective. -/
  | index (violation : IndexViolation)
  | badStart (expected found : Nat)
  | badStop (expected found : Nat)
  | notContiguous (left right : Range)
  | unmerged (left right : Range) (usage : Usage)
  | wrongBucket (range : Range) (expected found : Nat)
  | brokenBucketLink (bucket : Nat) (node : Handle)
  | bucketCount (linked tracked : Nat)
  | bucketMembership (range : Range) (usage : Usage) (linked : Bool)
  | empty
  deriving DecidableEq

namespace ExtentViolation

def message : ExtentViolation → String
  | index violation => "tree: " ++ violation.message
  | badStart expected found =>
    "region starts at " ++ hex expected ++ " but the first extent starts at " ++ hex found
  | badStop expected found =>
    "region ends at " ++ hex expected ++ " but the last extent ends at " ++ hex found
  | notContiguous left right =>
    "hole or overlap between " ++ left.text ++ " and " ++ right.text
  | unmerged left right usage =>
    "adjacent extents " ++ left.text ++ " and " ++ right.text
      ++ " share type " ++ usage.text
  | wrongBucket range expected found =>
    "extent " ++ range.text ++ " sits in bucket " ++ toString found
      ++ ", expected " ++ toString expected
  | brokenBucketLink bucket node =>
    "bucket " ++ toString bucket ++ " has a broken link at " ++ node.text
  | bucketCount linked tracked =>
    "buckets hold " ++ toString linked ++ " extent(s), tree holds "
      ++ toString tracked ++ " free"
  | bucketMembership range usage linked =>
    usage.text ++ " extent " ++ range.text ++ " has the wrong bucket membership (linked: "
      ++ toString linked ++ ")"
  | empty => "the tree holds no extents"

end ExtentViolation

end KernelMemory
