import NetScribe.Java.Literal
import NetScribe.Java.Page
import NetScribe.Path.Basic
import NetScribe.Resource.Dataset
import NetScribe.Tree.Node

/-!
# What each kind of node is written as

A block is the imports a piece of program needs and the steps that write it. The leaves of a tree
are blocks; a container is an opening line, what its children are written as, and a closing brace.
-/

namespace NetScribe.Java

/-- A piece of program: the imports it needs and the steps that write it. -/
structure Block where
  imports : List String := []
  steps : List Page.Step := []

/-! ## Imported names -/

def mlMethod : String := "org.encog.ml.MLMethod"

def mlEncodable : String := "org.encog.ml.MLEncodable"

def mlMethodFactory : String := "org.encog.ml.factory.MLMethodFactory"

def directoryPersistence : String := "org.encog.persist.EncogDirectoryPersistence"

def mlDataSet : String := "org.encog.ml.data.MLDataSet"

def basicMLDataSet : String := "org.encog.ml.data.basic.BasicMLDataSet"

def encogUtility : String := "org.encog.util.simple.EncogUtility"

def javaFile : String := "java.io.File"

namespace Block

/-- A comment of one line. -/
def comment (text : String) : Block where
  steps := [.line ("// " ++ text)]

/-- A constant; its value is quoted whatever its type. -/
def const (name typeName value : String) : Block where
  steps :=
    [.line ("public static final " ++ typeName ++ " " ++ name ++ " = " ++ quoted value ++ ";")]

/-- A call, bound to a variable if it has one. -/
def call (name : String) : Option Binding → Block
  | some binding =>
    { steps := [.blank, .line (binding.typeName ++ " " ++ binding.var ++ " = " ++ name ++ "();")] }
  | none => { steps := [.blank, .line (name ++ "();")] }

/-- An array with a few numbers on each line. -/
def array (name : String) (values : List Binary64) : Block where
  steps :=
    [.opening ("public static final double[] " ++ name ++ " = \x7b")] ++
    (batchLines defaultPrecision arrayBatch values).map .line ++
    [.closing "\x7d;"]

/-- A function that rebuilds a model from its recipe and the weights array. -/
def embeddedNetwork (name : String) (recipe : Recipe) : Block where
  imports := [mlMethod, mlMethodFactory, mlEncodable]
  steps :=
    [.blank,
     .opening ("public static MLMethod " ++ name ++ "() \x7b"),
     .line "MLMethodFactory methodFactory = new MLMethodFactory();",
     .line ("MLMethod result = methodFactory.create(" ++ quoted recipe.method ++ "," ++
       quoted recipe.architecture ++ ", 0, 0);"),
     .line "((MLEncodable)result).decodeFromArray(WEIGHTS);",
     .line "return result;",
     .closing "\x7d"]

/-- A function that loads a model from its file. -/
def linkedNetwork (name : String) (model : Path) : Block where
  imports := [mlMethod, directoryPersistence, javaFile]
  steps :=
    [.blank,
     .opening ("public static MLMethod " ++ name ++ "() \x7b"),
     .line ("MLMethod result = (MLMethod)EncogDirectoryPersistence.loadObject(new File(" ++
       quoted model.text ++ "));"),
     .line "return result;",
     .closing "\x7d"]

/-- A table of numbers, one row per line. -/
def rows (name : String) (values : List (List Binary64)) : List Page.Step :=
  [.opening ("public static final double[][] " ++ name ++ " = \x7b")] ++
  values.map (fun row => .line ("\x7b " ++ numberList defaultPrecision row ++ " \x7d,")) ++
  [.closing "\x7d;"]

/-- The training data as two tables. -/
def trainingData (dataset : Dataset) : Block where
  steps :=
    rows "INPUT_DATA" (dataset.pairs.map Pair.input) ++
    [.blank] ++
    rows "IDEAL_DATA" (dataset.pairs.map Pair.ideal)

/-- A function that gives the training data written in place. -/
def embeddedTraining (name : String) : Block where
  imports := [mlDataSet, basicMLDataSet]
  steps :=
    [.blank,
     .opening ("public static MLDataSet " ++ name ++ "() \x7b"),
     .line "MLDataSet result = new BasicMLDataSet(INPUT_DATA,IDEAL_DATA);",
     .line "return result;",
     .closing "\x7d"]

/-- A function that loads the training data from its file. -/
def linkedTraining (name : String) (data : Path) : Block where
  imports := [mlDataSet, encogUtility, javaFile]
  steps :=
    [.blank,
     .opening ("public static MLDataSet " ++ name ++ "() \x7b"),
     .line ("MLDataSet result = EncogUtility.loadEGB2Memory(new File(" ++
       quoted data.text ++ "));"),
     .line "return result;",
     .closing "\x7d"]

end Block

/-! ## Containers -/

/-- The opening line of a class. -/
def classOpening (name : String) : String :=
  "public class " ++ name ++ " \x7b"

/-- The opening line of the entry point. -/
def mainOpening : String :=
  "public static void main(String[] args) \x7b"

/-- The opening line of a static function. -/
def functionOpening (name : String) : String :=
  "public static void " ++ name ++ "() \x7b"

end NetScribe.Java
