import ObjectMachine.Image.Define

namespace ObjectMachine.Kernel

def wrapper (selector : String) (params : List String) (name : String) : Method where
  selector
  params
  body := [.ret (.primitive name (.self :: params.map .variable))]

def answer (selector : String) (params : List String) (value : Expr) : Method where
  selector
  params
  body := [.ret value]

def comparing (selector comparison : String) : Method :=
  answer selector ["other"] (.binary .self comparison (.variable "other"))

def differing (selector comparison : String) : Method :=
  answer selector ["other"]
    (.unary (.binary .self comparison (.variable "other")) "not")

def objectMethods : List Method := [
  comparing "==" "==",
  differing "~~" "==",
  comparing "=" "==",
  differing "~=" "=",
  wrapper "class" [] "classOf",
  wrapper "hash" [] "identityHash",
  wrapper "identityHash" [] "identityHash",
  answer "isNil" [] (.pseudo .false),
  answer "notNil" [] (.pseudo .true),
  answer "yourself" [] .self,
  wrapper "printString" [] "printString",
  wrapper "displayString" [] "displayString",
  { selector := "printNl"
    body := [.primitive "transcriptShow" [.unary .self "printString"]] },
  { selector := "displayNl", body := [.primitive "transcriptShow" [.self]] }]

def nilMethods : List Method := [
  answer "isNil" [] (.pseudo .true),
  answer "notNil" [] (.pseudo .false)]

def classMethods : List Method := [
  wrapper "basicNew" [] "basicNew",
  answer "new" [] (.unary .self "basicNew"),
  answer "name" [] (.variable "name"),
  answer "superclass" [] (.variable "superclass")]

def arrayClassMethods : List Method := [
  wrapper "new:" ["size"] "arrayNew",
  answer "new" [] (.binary .self "new:" (.int 0))]

/-- Evaluates `body` with `i` going up by one as long as it is at most `limit`. -/
def counting (start limit body : Expr) : List Expr := [
  .assign "i" start,
  .send (.thunk [.binary (.variable "i") "<=" limit]) "whileTrue:"
    [.thunk [body, .assign "i" (.binary (.variable "i") "+" (.int 1))]]]

def integerOperators : List BinaryOp :=
  BinaryOp.all.toList.filter fun op => op ≠ .identical ∧ op ≠ .equal ∧ op ≠ .notEqual

def integerMethods : List Method :=
  integerOperators.map (fun op => wrapper op.selector ["other"] op.primitive.name) ++ [
    comparing "=" "==",
    differing "~=" "==",
    { selector := "timesRepeat:", params := ["body"], temps := ["i"]
      body := counting (.int 1) .self (.unary (.variable "body") "value") },
    { selector := "to:do:", params := ["stop", "body"], temps := ["i"]
      body := counting .self (.variable "stop")
        (.binary (.variable "body") "value:" (.variable "i")) }]

def evaluating (selector : String) (params : List String) (chosen : String) : Method :=
  answer selector params (.unary (.variable chosen) "value")

def trueMethods : List Method := [
  evaluating "ifTrue:" ["then"] "then",
  answer "ifFalse:" ["else"] (.pseudo .nil),
  evaluating "ifTrue:ifFalse:" ["then", "else"] "then",
  evaluating "ifFalse:ifTrue:" ["else", "then"] "then",
  evaluating "and:" ["other"] "other",
  answer "or:" ["other"] .self,
  answer "not" [] (.pseudo .false)]

def falseMethods : List Method := [
  answer "ifTrue:" ["then"] (.pseudo .nil),
  evaluating "ifFalse:" ["else"] "else",
  evaluating "ifTrue:ifFalse:" ["then", "else"] "else",
  evaluating "ifFalse:ifTrue:" ["else", "then"] "else",
  answer "and:" ["other"] .self,
  evaluating "or:" ["other"] "other",
  answer "not" [] (.pseudo .true)]

/-- A block that evaluates the receiver. -/
def valueOfSelf : Expr := .thunk [.unary .self "value"]

/-- Evaluates the block in the parameter as long as the receiver says so. -/
def looping (selector : String) : Method :=
  answer selector ["body"]
    (.send valueOfSelf selector [.thunk [.unary (.variable "body") "value"]])

def blockMethods : List Method := [
  wrapper "value" [] "blockInvoke",
  wrapper "value:" ["a"] "blockInvoke",
  wrapper "value:value:" ["a", "b"] "blockInvoke",
  wrapper "value:value:value:" ["a", "b", "c"] "blockInvoke",
  answer "numArgs" [] (.variable "argCount"),
  looping "whileTrue:",
  looping "whileFalse:",
  answer "whileTrue" [] (.unary valueOfSelf "whileTrue"),
  answer "whileFalse" [] (.unary valueOfSelf "whileFalse"),
  answer "fork" [] (.primitive "processFork" [.self, .pseudo .nil]),
  wrapper "forkNamed:" ["name"] "processFork"]

def readingMethods : List Method := [
  wrapper "size" [] "size",
  wrapper "at:" ["index"] "at"]

def arrayMethods : List Method := readingMethods ++ [wrapper "at:put:" ["index", "value"] "atPut"]

def stringMethods : List Method := readingMethods ++ [
  wrapper "," ["other"] "stringConcat",
  wrapper "=" ["other"] "stringEqual",
  wrapper "asString" [] "asString",
  wrapper "asSymbol" [] "asSymbol"]

def symbolMethods : List Method := [
  comparing "=" "==",
  answer "asSymbol" [] .self]

def dictionaryMethods : List Method := [
  wrapper "at:" ["key"] "dictionaryAt",
  wrapper "at:put:" ["key", "value"] "dictionaryAtPut"]

def contextMethods : List Method := [
  wrapper blockReturnSelector ["value"] "blockReturn",
  wrapper "resume:" ["value"] "returnInto"]

def processMethods : List Method := [
  wrapper "resume" [] "processResume",
  wrapper "suspend" [] "processSuspend",
  answer "isDone" [] (.binary (.variable "state") "=" (.int 2)),
  answer "name" [] (.variable "name")]

def processClassMethods : List Method := [
  answer "current" [] (.primitive "processCurrent" []),
  answer "yield" [] (.primitive "processYield" []),
  answer "disableInterrupts" [] (.primitive "disableInterrupts" []),
  answer "enableInterrupts" [] (.primitive "enableInterrupts" [])]

/-- The methods in the order in which they are entered, with their classes. The flag selects the
metaclass. -/
def methods : List (KernelClass × Bool × List Method) := [
  (.object, false, objectMethods),
  (.undefinedObject, false, nilMethods),
  (.metaclass, false, classMethods),
  (.array, true, arrayClassMethods),
  (.dictionary, true, [wrapper "new" [] "dictionaryNew"]),
  (.smallInteger, false, integerMethods),
  (.trueClass, false, trueMethods),
  (.falseClass, false, falseMethods),
  (.block, false, blockMethods),
  (.array, false, arrayMethods),
  (.byteArray, false, readingMethods),
  (.string, false, stringMethods),
  (.symbol, false, symbolMethods),
  (.dictionary, false, dictionaryMethods),
  (.context, false, contextMethods),
  (.process, false, processMethods),
  (.process, true, processClassMethods)]

end ObjectMachine.Kernel
