import PrettyFormat.Sexpr
import PrettyFormat.Format
import PrettyFormat.Flatten
import PrettyFormat.Builders
import PrettyFormat.Space
import PrettyFormat.Be
import PrettyFormat.Pending
import PrettyFormat.Render
import PrettyFormat.Group
import PrettyFormat.Layout
import PrettyFormat.Arrange
import PrettyFormat.Safety
import PrettyFormat.Highlight
