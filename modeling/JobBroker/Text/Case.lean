/-!
# Letter case

Text in which upper and lower case count the same. Only ASCII letters matter here, and the Kelvin
sign, which is the one other character whose small letter is an ASCII letter.
-/

namespace JobBroker.Text

def kelvinSign : Char := '\u212a'

def lowerChar (c : Char) : Char := if c = kelvinSign then 'k' else c.toLower

def lower (s : String) : String := String.ofList (s.toList.map lowerChar)

end JobBroker.Text
