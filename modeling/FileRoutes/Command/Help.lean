import FileRoutes.Command.Line

/-!
# What the command says about itself

The explanation of the options comes in two lengths: one line for each option, or a paragraph.  Both
begin with what the command does and how it is called.
-/

namespace FileRoutes

namespace CommandLine

/-- What the command does and how it is called. -/
def heading : Text :=
  Text.lines [
    "Migrates a Next.js 13 app directory to a Vite + react-router project with a generated route table",
    "",
    "Usage: route-migrate [OPTIONS] <FROM> <TO>",
    "",
    "Arguments:"]

/-- A line for each operand and each option. -/
def summary : Text :=
  Text.lines [
    "  <FROM>  Source directory of the Next.js project (the one holding `app/`)",
    "  <TO>    Destination directory of the Vite project",
    "",
    "Options:",
    "      --order <ORDER>            Order of sibling routes [default: name] [possible values: name, filesystem]",
    "      --path-style <PATH_STYLE>  Write nested route paths relative to their parent or in full [default: relative] [possible values: relative, absolute]",
    "  -c, --conventions <FILE>       YAML file overriding the routing conventions",
    "      --skip-copy                Do not copy FROM into TO; compile what TO already holds",
    "      --dry-run                  Print the generated routes module instead of writing any file",
    "      --dump-routes <FILE>       Also write the derived route table as JSON",
    "  -v, --verbose                  Enable verbose output",
    "  -h, --help                     Print help (see more with '--help')",
    "  -V, --version                  Print version"]

/-- A paragraph for each operand. -/
def operandParagraphs : Text :=
  Text.lines [
    "  <FROM>",
    "          Source directory of the Next.js project (the one holding `app/`)",
    "",
    "  <TO>",
    "          Destination directory of the Vite project",
    ""]

/-- The paragraphs for the options with words to choose from. -/
def choiceParagraphs : Text :=
  Text.lines [
    "Options:",
    "      --order <ORDER>",
    "          Order of sibling routes",
    "",
    "          Possible values:",
    "          - name:       Sorted by file name; identical on every platform",
    "          - filesystem: Whatever order the operating system enumerates entries in",
    "          ",
    "          [default: name]",
    "",
    "      --path-style <PATH_STYLE>",
    "          Write nested route paths relative to their parent or in full",
    "",
    "          Possible values:",
    "          - relative: Only the segments below the parent route (`/settings`)",
    "          - absolute: The full URL path from the application root (`/dashboard/settings`)",
    "          ",
    "          [default: relative]",
    ""]

/-- The paragraphs for the other options. -/
def optionParagraphs : Text :=
  Text.lines [
    "  -c, --conventions <FILE>",
    "          YAML file overriding the routing conventions",
    "",
    "      --skip-copy",
    "          Do not copy FROM into TO; compile what TO already holds",
    "",
    "      --dry-run",
    "          Print the generated routes module instead of writing any file",
    "",
    "      --dump-routes <FILE>",
    "          Also write the derived route table as JSON",
    "",
    "  -v, --verbose",
    "          Enable verbose output",
    "",
    "  -h, --help",
    "          Print help (see a summary with '-h')",
    "",
    "  -V, --version",
    "          Print version"]

/-- The name of the command and its version. -/
def versionLine : Text := "route-migrate 0.1.0\n"

end CommandLine

/-- The text that a command line asks for, if it is not at fault. -/
def Exit.text? : Exit → Option Text
  | help true =>
    some (CommandLine.heading ++ CommandLine.operandParagraphs ++ CommandLine.choiceParagraphs
      ++ CommandLine.optionParagraphs)
  | help false => some (CommandLine.heading ++ CommandLine.summary)
  | version => some CommandLine.versionLine
  | fault _ => none

end FileRoutes
