import HindleyMilner.Env

/-
The prelude: the classes and functions that are there without a catalog file.
-/

namespace HindleyMilner

namespace Catalog

/-- A class whose instances ask the same of their arguments. -/
private def cls (name : String) (supers instances : List String) : Class :=
  ⟨name, supers, instances, []⟩

/-- The types that can be compared, shown and read. -/
private def dataTypes : List String :=
  ["Int", "Integer", "Float", "Double", "Bool", "Char", "Ordering", "()",
   "[]", "(,)", "(,,)", "Maybe", "Either"]

/-- The types of numbers. -/
private def numberTypes : List String :=
  ["Int", "Integer", "Float", "Double"]

def preludeClasses : List Class :=
  [cls "Eq" [] dataTypes,
   cls "Ord" ["Eq"] dataTypes,
   cls "Show" [] dataTypes,
   cls "Read" [] dataTypes,
   cls "Enum" []
      ["Int", "Integer", "Float", "Double", "Bool", "Char", "Ordering", "()"],
   cls "Bounded" [] ["Int", "Bool", "Char", "Ordering", "()", "(,)", "(,,)"],
   cls "Num" [] numberTypes,
   cls "Real" ["Num", "Ord"] numberTypes,
   cls "Integral" ["Real", "Enum"] ["Int", "Integer"],
   cls "Fractional" ["Num"] ["Float", "Double"],
   cls "Floating" ["Fractional"] ["Float", "Double"],
   cls "RealFrac" ["Real", "Fractional"] ["Float", "Double"],
   cls "RealFloat" ["RealFrac", "Floating"] ["Float", "Double"]]

def preludeFunctions : List Function :=
  [⟨"id", "a -> a", "Function",
     "Returns its argument."⟩,
   ⟨"const", "a -> b -> a", "Function",
     "Returns its first argument, ignoring the second."⟩,
   ⟨"(.)", "(b -> c) -> (a -> b) -> a -> c", "Function",
     "Composes two functions."⟩,
   ⟨"(+)", "Num a => a -> a -> a", "Math",
     "Adds two numbers."⟩,
   ⟨"(-)", "Num a => a -> a -> a", "Math",
     "Subtracts the second number from the first."⟩,
   ⟨"(*)", "Num a => a -> a -> a", "Math",
     "Multiplies two numbers."⟩,
   ⟨"(/)", "Fractional a => a -> a -> a", "Math",
     "Divides the first number by the second."⟩,
   ⟨"negate", "Num a => a -> a", "Math",
     "Negates a number."⟩,
   ⟨"sqrt", "Floating a => a -> a", "Math",
     "Returns the square root."⟩,
   ⟨"lcm", "Integral a => a -> a -> a", "Math",
     "Returns the least common multiple."⟩,
   ⟨"gcd", "Integral a => a -> a -> a", "Math",
     "Returns the greatest common divisor."⟩,
   ⟨"div", "Integral a => a -> a -> a", "Math",
     "Integer division, rounding toward negative infinity."⟩,
   ⟨"fromIntegral", "(Integral a, Num b) => a -> b", "Math",
     "Converts an integral number to any number type."⟩,
   ⟨"(==)", "Eq a => a -> a -> Bool", "Compare",
     "Returns whether two values are equal."⟩,
   ⟨"(<)", "Ord a => a -> a -> Bool", "Compare",
     "Returns whether the first value is less than the second."⟩,
   ⟨"compare", "Ord a => a -> a -> Ordering", "Compare",
     "Compares two values."⟩,
   ⟨"max", "Ord a => a -> a -> a", "Compare",
     "Returns the larger of two values."⟩,
   ⟨"min", "Ord a => a -> a -> a", "Compare",
     "Returns the smaller of two values."⟩,
   ⟨"not", "Bool -> Bool", "Bool",
     "Boolean negation."⟩,
   ⟨"show", "Show a => a -> String", "Text",
     "Converts a value to a string."⟩,
   ⟨"succ", "Enum a => a -> a", "Enum",
     "Returns the next value."⟩,
   ⟨"maxBound", "Bounded a => a", "Enum",
     "The largest value of a bounded type."⟩,
   ⟨"map", "(a -> b) -> [a] -> [b]", "List",
     "Applies a function to every element of a list."⟩,
   ⟨"filter", "(a -> Bool) -> [a] -> [a]", "List",
     "Keeps the elements of a list that satisfy a predicate."⟩,
   ⟨"foldr", "(a -> b -> b) -> b -> [a] -> b", "List",
     "Right-associative fold of a list."⟩,
   ⟨"length", "[a] -> Int", "List",
     "Returns the number of elements in a list."⟩,
   ⟨"(++)", "[a] -> [a] -> [a]", "List",
     "Appends two lists."⟩,
   ⟨"head", "[a] -> a", "List",
     "Returns the first element of a non-empty list."⟩,
   ⟨"tail", "[a] -> [a]", "List",
     "Returns all but the first element of a non-empty list."⟩,
   ⟨"zip", "[a] -> [b] -> [(a, b)]", "List",
     "Pairs up the elements of two lists."⟩,
   ⟨"fst", "(a, b) -> a", "Tuple",
     "Returns the first component of a pair."⟩,
   ⟨"snd", "(a, b) -> b", "Tuple",
     "Returns the second component of a pair."⟩]

/-- The catalog that is there without a file. -/
def prelude : Catalog :=
  ⟨supportedVersion, preludeClasses, preludeFunctions⟩

end Catalog

/-- The environment of the prelude, whose classes are added to the state. -/
def Env.prelude (st : TypeState) : Except EnvError Env × TypeState :=
  match Env.load .prelude (.empty, st) with
  | .ok _ (env, st) => (.ok env, st)
  | .error e (_, st) => (.error e, st)

end HindleyMilner
